import LinuxServer.Protobuf.RoundTrip

/-! Any bytes at all, cut in any two ways: what the receive loop makes of them
depends on the bytes alone. -/
namespace LinuxServer.Protobuf
open LinuxServer.Lib LinuxServer.Reactor
variable {Msg Descriptor : Type} (rt : Runtime Msg Descriptor)

def Event.message? : Event Msg → Option Msg
  | .message m => some m
  | .error _ => none

def Event.error? : Event Msg → Option ErrorCode
  | .message _ => none
  | .error e => some e

/-- The bytes that deliver a message: a length field in range and the body of that
length, which parses to the message. -/
def FrameOf (m : Msg) (f : List UInt8) : Prop :=
  ∃ body : List UInt8, f = beBytes 4 body.length ++ body ∧ minMessageLength ≤ body.length ∧
    body.length ≤ maxMessageLength ∧ parse rt body body.length = .ok (some m,.noError)

/-- A length field is the image of its value. -/
theorem beBytes_int32At {bs : List UInt8} (hlen : bs.length = 4) {k : Nat} (hk : int32At bs = k) : beBytes 4 k = bs := by
  have hlt := (BitVec.ofNat 32 (ofBeBytes bs)).toInt_lt
  rw [← int32At,hk] at hlt
  exact beBytes_of_int32At hlen (by rw [castInt32_natCast (by omega),hk])

private theorem frameOf_look {m : Msg} {f t : List UInt8} (h : look rt (f ++ t) = .value m f.length) : FrameOf rt m f := by
  obtain ⟨hmin,-⟩ := look_value rt h
  have hlong : ¬ (f ++ t).length < 14 := by
    rw [List.length_append]
    omega
  rw [look,if_neg hlong,List.take_append_of_le_length (by omega),lookFrame] at h
  split at h
  · cases h
  rename_i hrange
  split at h
  · cases h
  split at h
  · rename_i hverdict
    obtain ⟨rfl,hsize⟩ := Verdict.value.inj h
    simp only [maxMessageLength,minMessageLength,headerLength,not_or,not_lt] at hrange
    rw [List.drop_append_of_le_length (by omega),List.take_left' (by rw [List.length_drop]; omega)] at hverdict
    have hbody : ((f.drop 4).length : Int) = int32At (f.take 4) := by
      rw [List.length_drop]
      omega
    refine ⟨f.drop 4,?_,?_,?_,?_⟩
    · rw [beBytes_int32At (by rw [List.length_take]; omega) hbody.symm,List.take_append_drop]
    · rw [hbody,minMessageLength,headerLength]
      omega
    · rw [hbody,maxMessageLength]
      omega
    · have hparse := parse_ok rt (f.drop 4) [] (by omega) (by omega)
      rwa [List.append_nil,hverdict] at hparse
  · cases h

private theorem message_events (values : List Msg) (error : Option ErrorCode) :
    (events values error).filterMap Event.message? = values := by
  have hv : (values.map Event.message).filterMap Event.message? = values := by
    rw [List.filterMap_map]
    exact List.filterMap_some
  have he : (error.map Event.error).toList.filterMap (Event.message? : Event Msg → Option Msg) = [] := by
    cases error <;> rfl
  rw [events,List.filterMap_append,hv,he,List.append_nil]

private theorem error_events (values : List Msg) (error : Option ErrorCode) :
    (events values error).filterMap Event.error? = error.toList := by
  have hv : (values.map Event.message).filterMap Event.error? = [] := by
    rw [List.filterMap_map]
    exact List.filterMap_eq_nil_iff.mpr fun _ _ => rfl
  have he : (error.map Event.error).toList.filterMap (Event.error? : Event Msg → Option ErrorCode) = error.toList := by
    cases error <;> rfl
  rw [events,List.filterMap_append,hv,he,List.nil_append]

private theorem messages_feed (calls : List (List Msg × Option ErrorCode)) :
    (calls.map fun c => events c.1 c.2).flatten.filterMap Event.message? = calls.flatMap Prod.fst := by
  induction calls with
  | nil => rfl
  | cons c calls ih => rw [List.map_cons,List.flatten_cons,List.filterMap_append,message_events,ih,List.flatMap_cons]

private theorem errors_feed (calls : List (List Msg × Option ErrorCode)) :
    (calls.map fun c => events c.1 c.2).flatten.filterMap Event.error? = calls.filterMap Prod.snd := by
  induction calls with
  | nil => rfl
  | cons c calls ih =>
    rw [List.map_cons,List.flatten_cons,List.filterMap_append,error_events,ih,List.filterMap_cons]
    cases c.2 <;> rfl

/-- What one run delivers, in terms of the bytes alone. -/
theorem receive_drains (cb : Buffer → ErrorCode → Buffer) (hcb : ∀ b e, cb b e = b) {input : Buffer}
    (hinput : BufferQueue.Reached input) (hempty : input.readable = []) (chunks : List (List UInt8)) :
    ∃ b calls, receive rt cb input chunks = .ok (b,calls) ∧
      calls.flatten.filterMap Event.message? = ((decoder rt).drain chunks.flatten).values ∧
      (calls.flatten.filterMap Event.error?).head? = ((decoder rt).drain chunks.flatten).error ∧
      b.readable = ((decoder rt).drain chunks.flatten).rest := by
  obtain ⟨b,-,hread,hrun⟩ := receive_ok rt cb hinput.wf chunks (.inr hcb)
  have hnil : (decoder rt).drain [] = ⟨[],none,[]⟩ := (decoder rt).drain_wait (decoder rt).look_nil
  rw [hempty] at hread hrun
  obtain ⟨hvalues,hrest⟩ := (decoder rt).feed_values [] chunks (by rw [hnil])
  have herror := (decoder rt).feed_first_error [] chunks hnil
  rw [List.nil_append] at hvalues hrest herror
  refine ⟨b,_,hrun,?_,?_,hread.trans hrest⟩
  · rw [messages_feed,hvalues]
  · rw [errors_feed,herror]

/-- Two runs over the same bytes, whatever they are and however they are cut: the same
messages, the same first error if any, and the same bytes left over, which are all but
the frames of the delivered messages. -/
theorem receive_ignores_cuts (cb : Buffer → ErrorCode → Buffer) (hcb : ∀ b e, cb b e = b)
    {input₁ input₂ : Buffer} (h₁ : BufferQueue.Reached input₁) (he₁ : input₁.readable = [])
    (h₂ : BufferQueue.Reached input₂) (he₂ : input₂.readable = []) (chunks₁ chunks₂ : List (List UInt8))
    (hcut : chunks₁.flatten = chunks₂.flatten) :
    ∃ b₁ calls₁ b₂ calls₂, receive rt cb input₁ chunks₁ = .ok (b₁,calls₁) ∧ receive rt cb input₂ chunks₂ = .ok (b₂,calls₂) ∧
      calls₁.flatten.filterMap Event.message? = calls₂.flatten.filterMap Event.message? ∧
      (calls₁.flatten.filterMap Event.error?).head? = (calls₂.flatten.filterMap Event.error?).head? ∧
      b₁.readable = b₂.readable ∧
      ∃ frames, List.Forall₂ (FrameOf rt) (calls₁.flatten.filterMap Event.message?) frames ∧
        chunks₁.flatten = frames.flatten ++ b₁.readable := by
  obtain ⟨b₁,calls₁,hrun₁,hvalues₁,herror₁,hrest₁⟩ := receive_drains rt cb hcb h₁ he₁ chunks₁
  obtain ⟨b₂,calls₂,hrun₂,hvalues₂,herror₂,hrest₂⟩ := receive_drains rt cb hcb h₂ he₂ chunks₂
  rw [← hcut] at hvalues₂ herror₂ hrest₂
  obtain ⟨frames,hsplit,hframes⟩ := (decoder rt).drain_split chunks₁.flatten
  refine ⟨b₁,calls₁,b₂,calls₂,hrun₁,hrun₂,hvalues₁.trans hvalues₂.symm,herror₁.trans herror₂.symm,
    hrest₁.trans hrest₂.symm,frames,?_,by rw [hrest₁]; exact hsplit⟩
  rw [hvalues₁]
  exact hframes.imp fun m f hlook => by
    obtain ⟨t,ht⟩ := hlook
    exact frameOf_look rt ht

/-- Fourteen zero bytes at once and one by one: a length out of range, and all are kept. -/
theorem receive_ignores_cuts_bytewise :
    ∃ b₁ calls₁ b₂ calls₂, receive emptyRuntime (fun b _ => b) .new [List.replicate 14 0] = .ok (b₁,calls₁) ∧
      receive emptyRuntime (fun b _ => b) .new (List.replicate 14 [0]) = .ok (b₂,calls₂) ∧
      (calls₁.flatten.filterMap Event.error?).head? = some .invalidLength ∧
      (calls₂.flatten.filterMap Event.error?).head? = some .invalidLength ∧
      b₁.readable = List.replicate 14 0 ∧ b₂.readable = List.replicate 14 0 := by
  have hnew := BufferQueue.reached_new
  have hempty := Buffer.readable_new
  obtain ⟨b₁,calls₁,b₂,calls₂,hrun₁,hrun₂,-,herror,hrest,-⟩ := receive_ignores_cuts emptyRuntime (fun b _ => b)
    (fun _ _ => rfl) hnew hempty hnew hempty [List.replicate 14 0] (List.replicate 14 [0]) rfl
  obtain ⟨b,calls,hrun,-,hfirst,hleft⟩ := receive_drains emptyRuntime (fun b _ => b) (fun _ _ => rfl) hnew hempty
    [List.replicate 14 0]
  cases hrun₁.symm.trans hrun
  have hlook : (decoder emptyRuntime).look (List.replicate 14 0) = .fail .invalidLength := by decide
  have hflat : ([List.replicate 14 0] : List (List UInt8)).flatten = List.replicate 14 0 := rfl
  rw [hflat,(decoder emptyRuntime).drain_fail hlook] at hfirst hleft
  exact ⟨b₁,calls₁,b₂,calls₂,hrun₁,hrun₂,hfirst,herror.symm.trans hfirst,hleft,hrest.symm.trans hleft⟩

/-- Hostile lengths change nothing: on every buffer the codec also runs to its end
under the stricter rules, where a frame is read from its own bytes alone, lengths
keep their values, and an iteration that goes on has consumed fourteen bytes or more. -/
theorem onMessage_safe (cb : Buffer → ErrorCode → Buffer) {b : Buffer} (h : BufferQueue.Reached b) :
    ∃ r, onMessageChecked rt cb b = .ok r ∧ onMessage rt cb b = .ok r := by
  obtain ⟨b',-,-,hloop⟩ := onMessageLoopChecked_ok rt cb (b.readableBytes / 14 + 1) h.wf (Nat.lt_succ_self _)
  exact ⟨_,hloop,onMessageLoop_of_checked rt (by omega) h.wf hloop⟩

/-- A length of minus one. -/
theorem onMessage_safe_negative :
    ∃ b r, b.readable = List.replicate 14 255 ∧ onMessageChecked emptyRuntime (fun b _ => b) b = .ok r ∧
      onMessage emptyRuntime (fun b _ => b) b = .ok r := by
  obtain ⟨b,hreached,hread⟩ := BufferQueue.exists_reached (List.replicate 14 255)
  obtain ⟨r,hchecked,hrun⟩ := onMessage_safe emptyRuntime (fun b _ => b) hreached
  exact ⟨b,r,hread,hchecked,hrun⟩

end LinuxServer.Protobuf
