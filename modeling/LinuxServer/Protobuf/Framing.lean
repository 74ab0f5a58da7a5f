import LinuxServer.Lib.Framing
import LinuxServer.Protobuf.Checked

/-! The codec as a decoder of frames. Parsing is a function of the frame body
alone, and the receive loop drains the buffer. -/
namespace LinuxServer.Protobuf
open LinuxServer.Lib LinuxServer.Reactor
variable {Msg Descriptor : Type} (rt : Runtime Msg Descriptor)

/-! Casts and reads inside the bounds. -/

@[simp] theorem int32_ok {x : Int} (h : -2 ^ 31 ≤ x ∧ x < 2 ^ 31) : int32 x = .ok x := by
  simp only [int32,ensure_of _ h,ok_bind]
theorem castSize_natCast {n : Nat} (h : n < 2 ^ 64) : castSize n = n := by
  simp only [castSize]
  omega
theorem castUInt_castInt32 {n : Nat} (h : n < 2 ^ 32) : castUInt (castInt32 n) = n := by
  simp only [castUInt,castInt32,Int.bmod]
  omega

/-- The signed value of four bytes in network order. -/
def int32At (bs : List UInt8) : Int := (BitVec.ofNat 32 (ofBeBytes bs)).toInt

theorem int32At_beBytes (v : Nat) : int32At (beBytes 4 v) = castInt32 v := by
  rw [int32At,ofBeBytes_beBytes,BitVec.toInt_ofNat',castInt32,Int.natCast_mod]
  exact Int.emod_bmod ..
/-- Four bytes are the image of any value they have as an int. -/
theorem beBytes_of_int32At {bs : List UInt8} (hlen : bs.length = 4) {v : Nat} (h : castInt32 v = int32At bs) :
    beBytes 4 v = bs := by
  have hbytes := beBytes_ofBeBytes bs
  rw [hlen] at hbytes
  have hmod : v % 256 ^ 4 = ofBeBytes bs % 256 ^ 4 := by
    rw [castInt32,int32At,BitVec.toInt_ofNat',Int.bmod,Int.bmod] at h
    omega
  rw [← beBytes_mod,hmod,beBytes_mod,hbytes]
theorem castInt32_natCast {v : Nat} (h : v < 2 ^ 31) : castInt32 v = v := by
  simp only [castInt32,Int.bmod]
  omega
theorem exactSize_ok {x : Int} {n : Nat} (hx : x = n) (hn : n < 2 ^ 64) : exactSize x = .ok n :=
  exactSize_ok_iff.mpr ⟨hx,hn⟩
theorem readMem_ok (buf : List UInt8) {i n : Nat} (h : i + n ≤ buf.length) :
    readMem buf i n = .ok ((buf.drop i).take n) := by
  have hin : (0 : Int) ≤ i ∧ (i : Int) + n ≤ buf.length := by omega
  simp only [readMem,ensure_of _ hin,ok_bind,Int.toNat_natCast]
theorem asInt32_ok (buf : List UInt8) {i : Nat} (h : i + 4 ≤ buf.length) :
    asInt32 buf i = .ok (int32At ((buf.drop i).take 4)) := by
  have hlen : ((buf.drop i).take 4).length = 4 := by
    rw [List.length_take,List.length_drop]
    omega
  simp only [asInt32,readMem_ok buf h,ok_bind,networkToHost32_ofMemory _ hlen,int32At]

/-! What the bytes of a body say. -/

def bodyVerdict (body : List UInt8) : Option Msg × ErrorCode :=
  let n := body.length
  if castInt32 (rt.adler32 1 (body.take (n - 4))) = int32At (body.drop (n - 4)) then
    let k := int32At (body.take 4)
    if 2 ≤ k ∧ k ≤ (n : Int) - 8 then
      match createMessage rt ((body.drop 4).take (k.toNat - 1)) with
      | some p =>
        let r := rt.parseFromArray p ((body.drop (4 + k.toNat)).take (n - k.toNat - 8))
        (some r.1,if r.2 then .noError else .parseError)
      | none => (none,.unknownMessageType)
    else (none,.invalidNameLen)
  else (none,.checkSumError)

/-- Parsing a body of admissible length touches nothing outside it, computes no
length out of range, and gives the body's verdict. -/
theorem parseChecked_ok (body : List UInt8) (hmin : 8 ≤ body.length) (hmax : body.length < 2 ^ 31) :
    parseChecked rt body body.length = .ok (bodyVerdict rt body) := by
  have hend : (body.length : Int) - headerLength = ((body.length - 4 : Nat) : Int) := by
    rw [headerLength]
    omega
  have hlast : (body.drop (body.length - 4)).take 4 = body.drop (body.length - 4) :=
    List.take_of_length_le (by rw [List.length_drop]; omega)
  have hlow : (2 : Int) * headerLength = 8 := rfl
  have hcovered : exactUInt ((body.length - 4 : Nat) : Int) = .ok (body.length - 4) :=
    exactUInt_ok_iff.mpr ⟨rfl,by omega⟩
  rw [parseChecked,hend,int32_ok (by omega),ok_bind,asInt32_ok body (by omega),ok_bind,ok_bind,hcovered,ok_bind,
    show (0 : Int) = ((0 : Nat) : Int) from rfl,readMem_ok body (by omega),asInt32_ok body (by omega),ok_bind,ok_bind,
    hlast,hlow,int32_ok (by omega),ok_bind,bodyVerdict,List.drop_zero]
  by_cases hsum : castInt32 (rt.adler32 1 (body.take (body.length - 4))) = int32At (body.drop (body.length - 4))
  · simp only [hsum,if_true]
    by_cases hname : 2 ≤ int32At (body.take 4) ∧ int32At (body.take 4) ≤ (body.length : Int) - 8
    · -- the name length is admissible, so name and payload lie inside the body
      simp only [hname,and_self,if_true]
      obtain ⟨k,hk⟩ := Int.eq_ofNat_of_zero_le (show 0 ≤ int32At (body.take 4) by omega)
      rw [hk] at hname ⊢
      have hnl : exactSize ((k : Int) - 1) = .ok (k - 1) := exactSize_ok (by omega) (by omega)
      have hdl : exactSize ((body.length : Int) - k - 8) = .ok (body.length - k - 8) :=
        exactSize_ok (by omega) (by omega)
      have hpay : headerLength + (k : Int) = ((4 + k : Nat) : Int) := by
        rw [headerLength]
        omega
      have hsum : headerLength = ((4 : Nat) : Int) := rfl
      rw [hnl,ok_bind,hsum,readMem_ok body (by omega),ok_bind,Int.toNat_natCast]
      cases createMessage rt ((body.drop 4).take (k - 1)) with
      | none => rfl
      | some p =>
        simp only
        rw [int32_ok (by omega),ok_bind,int32_ok (by omega),ok_bind,hdl,ok_bind,← hsum,hpay,
          readMem_ok body (by omega),ok_bind]
    · simp only [hname,if_false]
  · simp only [hsum,if_false]

/-- The code's parse agrees, whatever lies behind the body. -/
theorem parse_ok (body tail : List UInt8) (hmin : 8 ≤ body.length) (hmax : body.length < 2 ^ 31) :
    parse rt (body ++ tail) body.length = .ok (bodyVerdict rt body) :=
  parse_of_checked rt tail (parseChecked_ok rt body hmin hmax)

/-! The decoder behind the receive loop. -/

/-- What to make of the input once the length field is there. -/
def lookFrame (nLen : Int) (s : List UInt8) : Verdict Msg ErrorCode :=
  if maxMessageLength < nLen ∨ nLen < minMessageLength then .fail .invalidLength
  else if s.length < nLen.toNat + 4 then .wait
  else match bodyVerdict rt ((s.drop 4).take nLen.toNat) with
    | (some m,.noError) => .value m (nLen.toNat + 4)
    | (_,e) => .fail e

def look (s : List UInt8) : Verdict Msg ErrorCode :=
  if s.length < 14 then .wait else lookFrame rt (int32At (s.take 4)) s

private theorem lookFrame_append (k : Int) (s t : List UInt8) (h : lookFrame rt k s ≠ .wait) :
    lookFrame rt k (s ++ t) = lookFrame rt k s := by
  by_cases hbad : maxMessageLength < k ∨ k < minMessageLength
  · rw [lookFrame,if_pos hbad,lookFrame,if_pos hbad]
  by_cases hpart : s.length < k.toNat + 4
  · rw [lookFrame,if_neg hbad,if_pos hpart] at h
    exact absurd rfl h
  have hwhole : ¬ (s ++ t).length < k.toNat + 4 := by
    rw [List.length_append]
    omega
  rw [lookFrame,if_neg hbad,if_neg hwhole,List.drop_append_of_le_length (by omega),
    List.take_append_of_le_length (by rw [List.length_drop]; omega),lookFrame,if_neg hbad,if_neg hpart]

private theorem look_append (s t : List UInt8) (h : look rt s ≠ .wait) : look rt (s ++ t) = look rt s := by
  by_cases hshort : s.length < 14
  · exact absurd (if_pos hshort) h
  have hlong : ¬ (s ++ t).length < 14 := by
    rw [List.length_append]
    omega
  rw [look,if_neg hshort] at h
  rw [look,if_neg hlong,List.take_append_of_le_length (by omega),lookFrame_append rt _ s t h,look,if_neg hshort]

theorem look_value {s : List UInt8} {m : Msg} {n : Nat} (h : look rt s = .value m n) :
    14 ≤ n ∧ n ≤ s.length := by
  rw [look,lookFrame] at h
  split at h
  · cases h
  split at h
  · cases h
  split at h
  · cases h
  split at h
  · rename_i hrange hpart _ _ _
    cases h
    simp only [minMessageLength,headerLength] at hrange
    omega
  · cases h

/-- The frame format as a decoder whose answers are final. -/
def decoder : Decoder UInt8 Msg ErrorCode where
  look := look rt
  look_nil := rfl
  size_pos h := by have := look_value rt h; omega
  size_le h := (look_value rt h).2
  value_append t h := by rw [look_append rt _ t (by rw [h]; simp),h]
  fail_append t h := by rw [look_append rt _ t (by rw [h]; simp),h]

/-- The callbacks that a drained stretch of bytes causes. -/
def events (values : List Msg) (error : Option ErrorCode) : List (Event Msg) :=
  values.map .message ++ (error.map .error).toList

/-- The loop drains the buffer, whatever it holds: it halts nowhere, reads only
readable bytes, and stops with what the decoder leaves. -/
theorem onMessageLoopChecked_ok (cb : Buffer → ErrorCode → Buffer) (fuel : Nat) {b : Buffer} (h : b.WF)
    (hfuel : b.readableBytes / 14 < fuel) :
    ∃ b', b'.WF ∧ b'.readable = ((decoder rt).drain b.readable).rest ∧
      onMessageLoopChecked rt cb fuel b =
        .ok ((((decoder rt).drain b.readable).error.elim b' (cb b')),
          events ((decoder rt).drain b.readable).values ((decoder rt).drain b.readable).error) := by
  induction fuel generalizing b with
  | zero => omega
  | succ fuel ih =>
    have hlen := h.readable_length
    have hmin : exactSize (minMessageLength + headerLength) = .ok 14 := rfl
    rw [onMessageLoopChecked,hmin,ok_bind]
    by_cases hshort : b.readableBytes < 14
    · have hl : (decoder rt).look b.readable = .wait := if_pos (by omega)
      rw [if_neg (by omega),(decoder rt).drain_wait hl]
      exact ⟨b,h,rfl,rfl⟩
    have hread := asInt32_ok b.readable (i := 0) (by omega)
    rw [List.drop_zero,Nat.cast_zero] at hread
    rw [if_pos (by omega),hread,ok_bind]
    have hlook : (decoder rt).look b.readable = lookFrame rt (int32At (b.readable.take 4)) b.readable :=
      if_neg (by omega)
    generalize int32At (b.readable.take 4) = nLen at hlook ⊢
    have hfail : ∀ e, (decoder rt).look b.readable = .fail e → ∃ b', b'.WF ∧
        b'.readable = ((decoder rt).drain b.readable).rest ∧
        (.ok (cb b e,[.error e]) : Except Halt (Buffer × List (Event Msg))) =
          .ok ((((decoder rt).drain b.readable).error.elim b' (cb b')),
            events ((decoder rt).drain b.readable).values ((decoder rt).drain b.readable).error) := by
      intro e he
      rw [(decoder rt).drain_fail he]
      exact ⟨b,h,rfl,rfl⟩
    by_cases hbad : maxMessageLength < nLen ∨ nLen < minMessageLength
    · rw [if_pos hbad]
      exact hfail _ (hlook.trans (if_pos hbad))
    have hrange := hbad
    simp only [maxMessageLength,minMessageLength,headerLength,not_or,not_lt] at hrange
    have hsum : -2 ^ 31 ≤ nLen + headerLength ∧ nLen + headerLength < 2 ^ 31 := by
      rw [headerLength]
      omega
    have hsize : exactSize (nLen + headerLength) = .ok (nLen.toNat + 4) :=
      exactSize_ok (by rw [headerLength]; omega) (by omega)
    rw [lookFrame,if_neg hbad] at hlook
    rw [if_neg hbad,int32_ok hsum,ok_bind,hsize,ok_bind]
    by_cases hpart : b.readableBytes < nLen.toNat + 4
    · have hl := hlook.trans (if_pos (by omega))
      rw [if_neg (by omega),(decoder rt).drain_wait hl]
      exact ⟨b,h,rfl,rfl⟩
    -- the whole frame is there, and its body is parsed
    rw [if_neg (by omega)] at hlook
    have hbody : (((b.readable.drop 4).take nLen.toNat).length : Int) = nLen := by
      rw [List.length_take,List.length_drop]
      omega
    have hparse := parseChecked_ok rt ((b.readable.drop 4).take nLen.toNat) (by omega) (by omega)
    rw [hbody] at hparse
    rw [if_pos (by omega),exactSize_ok (show nLen = (nLen.toNat : Int) by omega) (by omega),ok_bind,
      show headerLength = ((4 : Nat) : Int) from rfl,readMem_ok b.readable (by omega),ok_bind,hparse,ok_bind]
    cases hverdict : bodyVerdict rt ((b.readable.drop 4).take nLen.toNat) with
    | mk pMessage eErr =>
      rw [hverdict] at hlook
      cases pMessage with
      | none => exact hfail eErr hlook
      | some m =>
        cases eErr with
        | noError =>
          have hcommute : ((4 : Nat) : Int) + nLen = nLen + headerLength := Int.add_comm ..
          have hconsumes : 14 ≤ nLen.toNat + 4 := by omega
          obtain ⟨b₁,he₁,hwf₁,hread₁⟩ := Buffer.retrieve_ok h (n := nLen.toNat + 4) (by omega)
          have hshrink : b₁.readableBytes / 14 < fuel := by
            have := hwf₁.readable_length
            rw [hread₁,List.length_drop] at this
            omega
          obtain ⟨b',hwf',hread',hloop⟩ := ih hwf₁ hshrink
          rw [(decoder rt).drain_value hlook,← hread₁]
          refine ⟨b',hwf',hread',?_⟩
          simp only [hcommute,int32_ok hsum,ok_bind,hsize,ensure_of _ hconsumes,he₁,hloop]
          rfl
        | _ => exact hfail _ hlook

/-- The code's loop agrees. -/
theorem onMessage_ok (cb : Buffer → ErrorCode → Buffer) {b : Buffer} (h : b.WF) :
    ∃ b', b'.WF ∧ b'.readable = ((decoder rt).drain b.readable).rest ∧
      onMessage rt cb b =
        .ok ((((decoder rt).drain b.readable).error.elim b' (cb b')),
          events ((decoder rt).drain b.readable).values ((decoder rt).drain b.readable).error) := by
  obtain ⟨b',hwf',hread,hloop⟩ := onMessageLoopChecked_ok rt cb (b.readableBytes / 14 + 1) h (Nat.lt_succ_self _)
  exact ⟨b',hwf',hread,onMessageLoop_of_checked rt (by omega) h hloop⟩

/-- Chunk by chunk the buffer is the decoder's, as long as no error callback
takes a hand in its contents. -/
theorem receive_ok (cb : Buffer → ErrorCode → Buffer) {b : Buffer} (h : b.WF) (cs : List (List UInt8))
    (hq : (∀ call ∈ ((decoder rt).feed b.readable cs).1, call.2 = none) ∨ ∀ b e, cb b e = b) :
    ∃ b', b'.WF ∧ b'.readable = ((decoder rt).feed b.readable cs).2 ∧
      receive rt cb b cs = .ok (b',((decoder rt).feed b.readable cs).1.map fun c => events c.1 c.2) := by
  induction cs generalizing b with
  | nil => exact ⟨b,h,rfl,rfl⟩
  | cons c cs ih =>
    obtain ⟨b₁,he₁,hwf₁,hread₁,-⟩ := Buffer.append_ok h c
    obtain ⟨b₂,hwf₂,hread₂,hloop⟩ := onMessage_ok rt cb hwf₁
    rw [hread₁] at hread₂ hloop
    have hkeep : ((decoder rt).drain (b.readable ++ c)).error.elim b₂ (cb b₂) = b₂ := by
      cases he : ((decoder rt).drain (b.readable ++ c)).error with
      | none => rfl
      | some e =>
        rcases hq with hq | hq
        · exact absurd (he.symm.trans (hq _ List.mem_cons_self)) (by simp)
        · exact hq b₂ e
    rw [hkeep] at hloop
    rw [Decoder.feed,← hread₂] at hq ⊢
    obtain ⟨b₃,hwf₃,hread₃,hrest⟩ := ih hwf₂ (hq.imp_left fun hq call hc => hq call (List.mem_cons_of_mem _ hc))
    refine ⟨b₃,hwf₃,hread₃,?_⟩
    simp only [receive,he₁,ok_bind,hloop,hrest,List.map_cons]

end LinuxServer.Protobuf
