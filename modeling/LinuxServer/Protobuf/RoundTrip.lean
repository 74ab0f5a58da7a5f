import LinuxServer.Protobuf.Framing
import LinuxServer.Reactor.BufferQueue

/-! What the encoder writes, and that the receive loop gives the messages back
however the stream of frames is cut. -/
namespace LinuxServer.Protobuf
open LinuxServer.Lib LinuxServer.Reactor
variable {Msg Descriptor : Type} (rt : Runtime Msg Descriptor)

/-- The bytes under the checksum. -/
def covered (name payload : List UInt8) : List UInt8 :=
  beBytes 4 (name.length + 1) ++ (name ++ [0]) ++ payload

/-- The body that the frame format prescribes for a type name and a payload. -/
def layout (name payload : List UInt8) : List UInt8 :=
  covered name payload ++ beBytes 4 (rt.adler32 1 (covered name payload))

def frame (m : Msg) : List UInt8 :=
  let body := layout rt (rt.typeName m) (rt.serialize m)
  beBytes 4 body.length ++ body

@[simp] theorem covered_length (name payload : List UInt8) :
    (covered name payload).length = name.length + payload.length + 5 := by
  simp only [covered,List.length_append,beBytes_length,List.length_singleton]
  omega
@[simp] theorem layout_length (name payload : List UInt8) :
    (layout rt name payload).length = name.length + payload.length + 9 := by
  simp only [layout,List.length_append,beBytes_length,covered_length]

/-- Assumed of the runtime for a message: ByteSize announces what serialization
writes, and parsing into a fresh message of the type undoes it. -/
structure Faithful (m : Msg) : Prop where
  byteSize_eq : (rt.byteSize m).toInt = (rt.serialize m).length
  parse_serialize : ∀ d p, rt.findMessageTypeByName (rt.typeName m) = some d → rt.getPrototype d = some p →
    rt.parseFromArray (rt.new p) (rt.serialize m) = (m,true)

/-- The type of the message is known to the descriptor pool and the factory. -/
def Registered (m : Msg) : Prop :=
  ∃ d p, rt.findMessageTypeByName (rt.typeName m) = some d ∧ rt.getPrototype d = some p

/-- Assumed of the runtime: parsing rejects messages with missing fields. -/
def ParsesInitialized : Prop :=
  ∀ p bytes m, rt.parseFromArray p bytes = (m,true) → rt.isInitialized m = true

theorem wire32 (v : Nat) :
    memoryBytes 4 (hostToNetwork32 (BitVec.ofNat 32 v)) = beBytes 4 v := by
  rw [memory_hostToNetwork32,BitVec.toNat_ofNat]
  exact beBytes_mod 4 v

private theorem toInt_ofNat_small {v : Nat} (h : v < 2 ^ 31) : (BitVec.ofNat 32 v).toInt = v := by
  rw [BitVec.toInt_ofNat',Int.bmod]
  omega

theorem castUInt_castInt32_le (n : Nat) : castUInt (castInt32 n) ≤ n := by
  have hmod : (castInt32 n) % ((2 ^ 32 : Nat) : Int) = ((n % 2 ^ 32 : Nat) : Int) := Int.bmod_emod
  have hcast : castUInt (castInt32 n) = n % 2 ^ 32 := (congrArg Int.toNat hmod).trans (Int.toNat_natCast _)
  rw [hcast]
  exact Nat.mod_le ..

/-- The bytes under the checksum with k bytes of the name and its NUL. -/
def coveredBy (k : Nat) (name payload : List UInt8) : List UInt8 :=
  beBytes 4 (name.length + 1) ++ (name ++ [0]).take k ++ payload

theorem coveredBy_length {k : Nat} {name : List UInt8} (hk : k ≤ name.length + 1) (payload : List UInt8) :
    (coveredBy k name payload).length = k + payload.length + 4 := by
  simp only [coveredBy,List.length_append,beBytes_length,List.length_take,List.length_singleton]
  omega

theorem coveredBy_all (name payload : List UInt8) : coveredBy (name.length + 1) name payload = covered name payload := by
  rw [coveredBy,List.take_of_length_le (by simp),covered]

/-- On an empty buffer, with a name length that is not negative, the encoder runs to its
end; the checksum is over as many bytes as an int of their number says. -/
theorem fillEmptyBuffer_runs {b : Buffer} (h : b.WF) (he : b.readable = []) {m : Msg}
    (hsize : (rt.byteSize m).toInt = (rt.serialize m).length) (hinit : rt.isInitialized m = true) {k : Nat}
    (hk : (BitVec.ofNat 32 ((rt.typeName m).length + 1)).toInt = k) :
    ∃ b' body, fillEmptyBuffer rt (some b) m = .ok b' ∧ b'.WF ∧ b'.readable = beBytes 4 body.length ++ body ∧
      body = coveredBy k (rt.typeName m) (rt.serialize m) ++ beBytes 4 (rt.adler32 1
        ((coveredBy k (rt.typeName m) (rt.serialize m)).take
          (castUInt (castInt32 (coveredBy k (rt.typeName m) (rt.serialize m)).length)))) := by
  have hempty : 0 = b.readableBytes := by rw [← h.readable_length,he]; rfl
  have hfront : cheapPrepend ≤ b.readerIndex := by
    rw [h.empty_iff.mp he]
    exact h.cheap_le
  have hpay : (rt.serialize m).length < 2 ^ 31 := by
    have := BitVec.toInt_lt (x := rt.byteSize m)
    omega
  have hkmax : k < 2 ^ 31 := by
    have := BitVec.toInt_lt (x := BitVec.ofNat 32 ((rt.typeName m).length + 1))
    omega
  have hkle : k ≤ (rt.typeName m).length + 1 := by
    rw [BitVec.toInt_ofNat',Int.bmod] at hk
    omega
  have hcstr : readMem (rt.typeName m ++ [0]) 0 k = .ok ((rt.typeName m ++ [0]).take k) := by
    have hr := readMem_ok (rt.typeName m ++ [0]) (i := 0) (n := k) (by
      rw [List.length_append,List.length_singleton]
      omega)
    rwa [List.drop_zero] at hr
  obtain ⟨b₁,he₁,hwf₁,hread₁,hpre₁⟩ := Buffer.append_ok h
    (memoryBytes 4 (hostToNetwork32 (.ofNat 32 ((rt.typeName m).length + 1))))
  obtain ⟨b₂,he₂,hwf₂,hread₂,hpre₂⟩ := Buffer.append_ok hwf₁ ((rt.typeName m ++ [0]).take k)
  obtain ⟨b₃,he₃,hwf₃,hread₃,hroom,hpre₃⟩ := Buffer.ensureWritableBytes_ok hwf₂ (rt.serialize m).length
  obtain ⟨b₄,he₄,-,hri,-,hwf₅,hread₅⟩ := Buffer.store_ok hwf₃ hroom
  have hpre₅ : (b₄.hasWritted (rt.serialize m).length).readerIndex = b₄.readerIndex := rfl
  generalize hb₅ : b₄.hasWritted (rt.serialize m).length = b₅ at hwf₅ hread₅ hpre₅
  have hcov : b₅.readable = coveredBy k (rt.typeName m) (rt.serialize m) := by
    rw [hread₅,hread₃,hread₂,hread₁,he,wire32,List.nil_append,coveredBy]
  have hpeek := Buffer.peek_ok hwf₅ (castUInt_castInt32_le b₅.readableBytes)
  rw [← hwf₅.readable_length,hcov] at hpeek
  generalize hsum : (coveredBy k (rt.typeName m) (rt.serialize m)).take
    (castUInt (castInt32 (coveredBy k (rt.typeName m) (rt.serialize m)).length)) = summed at hpeek
  obtain ⟨b₆,he₆,hwf₆,hread₆,hpre₆⟩ := Buffer.append_ok hwf₅
    (memoryBytes 4 (hostToNetwork32 (.ofNat 32 (rt.adler32 1 summed))))
  have hlen₆ := hwf₆.readable_length
  rw [hread₆,hcov,wire32,List.length_append,coveredBy_length hkle,beBytes_length] at hlen₆
  have hpre : 4 ≤ b₆.prependableBytes := by
    simp only [Buffer.prependableBytes,cheapPrepend] at *
    omega
  have hlength : (memoryBytes 4 (hostToNetwork32 (.ofNat 32 b₆.readableBytes))).length ≤ b₆.prependableBytes := by
    simpa [memoryBytes] using hpre
  obtain ⟨b',he',hwf',hread'⟩ := Buffer.prepend_ok hwf₆ hlength
  refine ⟨b',b₆.readable,?_,hwf',by rw [hread',wire32,hwf₆.readable_length],by rw [hread₆,hcov,wire32]⟩
  have hannounced : castSize (rt.byteSize m).toInt = (rt.serialize m).length := by
    rw [hsize]
    exact castSize_natCast (by omega)
  have hnameSize : castSize (BitVec.ofNat 32 ((rt.typeName m).length + 1)).toInt = k := by
    rw [hk]
    exact castSize_natCast (by omega)
  have hnumber : castUInt (castInt32 b₅.readableBytes) =
      castUInt (castInt32 (coveredBy k (rt.typeName m) (rt.serialize m)).length) := by
    rw [← hwf₅.readable_length,hcov]
  have htotal : b₆.readableBytes =
      castSize (4 + (BitVec.ofNat 32 ((rt.typeName m).length + 1)).toInt + (rt.byteSize m).toInt + 4) := by
    rw [castSize,hk,hsize]
    omega
  simp only [fillEmptyBuffer,ensure_of _ hempty,ok_bind,Buffer.appendInt32,he₁,hnameSize,hcstr,he₂,
    ensure_of _ hinit]
  rw [hannounced,he₃,ok_bind,he₄,ok_bind,hb₅,ensure_of _ hsize.symm,ok_bind,hnumber,hpeek,ok_bind,he₆,ok_bind,
    ensure_of _ htotal,ok_bind,he']

/-- With a body of an int's length it leaves the frame. -/
theorem fillEmptyBuffer_ok {b : Buffer} (h : b.WF) (he : b.readable = []) {m : Msg}
    (hsize : (rt.byteSize m).toInt = (rt.serialize m).length) (hinit : rt.isInitialized m = true)
    (hmax : (rt.typeName m).length + (rt.serialize m).length + 9 < 2 ^ 31) :
    ∃ b', fillEmptyBuffer rt (some b) m = .ok b' ∧ b'.WF ∧ b'.readable = frame rt m := by
  have hname : (BitVec.ofNat 32 ((rt.typeName m).length + 1)).toInt = ((rt.typeName m).length + 1 : Nat) :=
    toInt_ofNat_small (by omega)
  obtain ⟨b',body,hrun,hwf,hread,hbody⟩ := fillEmptyBuffer_runs rt h he hsize hinit hname
  have hnumber : castUInt (castInt32 (covered (rt.typeName m) (rt.serialize m)).length) =
      (covered (rt.typeName m) (rt.serialize m)).length := castUInt_castInt32 (by rw [covered_length]; omega)
  rw [coveredBy_all,hnumber,List.take_length] at hbody
  exact ⟨b',hrun,hwf,by rw [hread,hbody,frame,layout]⟩

/-- A laid-out body of an int's length is accepted by the checksum and cut at the
name and the payload it was made of. -/
theorem bodyVerdict_layout {name payload : List UInt8} (hname : name ≠ [])
    (hmax : name.length + payload.length + 9 < 2 ^ 31) {p : Msg} (hp : createMessage rt name = some p) :
    bodyVerdict rt (layout rt name payload) = (some (rt.parseFromArray p payload).1,
      if (rt.parseFromArray p payload).2 then .noError else .parseError) := by
  have hpos := List.length_pos_iff.mpr hname
  have hcut : (layout rt name payload).length - 4 = (covered name payload).length := by
    rw [layout_length,covered_length]
    omega
  have hlayout : layout rt name payload =
      beBytes 4 (name.length + 1) ++ (name ++ ([0] ++ (payload ++ beBytes 4 (rt.adler32 1 (covered name payload))))) := by
    simp only [layout,covered,List.append_assoc]
  have hk : int32At ((layout rt name payload).take 4) = (name.length + 1 : Nat) := by
    rw [hlayout,List.take_left' (beBytes_length ..),int32At_beBytes,castInt32_natCast (by omega)]
  have hrange : 2 ≤ ((name.length + 1 : Nat) : Int) ∧
      ((name.length + 1 : Nat) : Int) ≤ ((layout rt name payload).length : Int) - 8 := by
    rw [layout_length]
    omega
  have hnameBytes : ((layout rt name payload).drop 4).take (name.length + 1 - 1) = name := by
    rw [hlayout,List.drop_left' (beBytes_length ..),Nat.add_sub_cancel,List.take_left]
  have hpayload : ((layout rt name payload).drop (4 + (name.length + 1))).take
      ((layout rt name payload).length - (name.length + 1) - 8) = payload := by
    have hsize : (layout rt name payload).length - (name.length + 1) - 8 = payload.length := by
      rw [layout_length]
      omega
    have hfront : (beBytes 4 (name.length + 1) ++ (name ++ [0])).length = 4 + (name.length + 1) := by
      simp only [List.length_append,beBytes_length,List.length_singleton]
    rw [hsize,hlayout,← List.append_assoc name,← List.append_assoc (beBytes 4 _),List.drop_left' hfront,List.take_left]
  have hsum : castInt32 (rt.adler32 1 ((layout rt name payload).take ((layout rt name payload).length - 4))) =
      int32At ((layout rt name payload).drop ((layout rt name payload).length - 4)) := by
    rw [hcut,layout,List.take_left,List.drop_left,int32At_beBytes]
  rw [bodyVerdict,if_pos hsum,hk]
  simp only [hrange,and_self,if_true,Int.toNat_natCast,hnameBytes,hp,hpayload]

/-- The decoder reads a frame back as its message, to the last byte. -/
theorem encodes_frame {m : Msg} (hreg : Registered rt m) (hm : Faithful rt m) (hname : rt.typeName m ≠ [])
    (hmax : ((layout rt (rt.typeName m) (rt.serialize m)).length : Int) ≤ maxMessageLength) :
    (decoder rt).Encodes m (frame rt m) := by
  obtain ⟨d,p,hd,hp⟩ := hreg
  have hcreate : createMessage rt (rt.typeName m) = some (rt.new p) := by
    simp [createMessage,hd,hp]
  have hpos := List.length_pos_iff.mpr hname
  have hlen := layout_length rt (rt.typeName m) (rt.serialize m)
  rw [hlen,maxMessageLength] at hmax
  have hlong : (rt.typeName m).length + (rt.serialize m).length + 9 < 2 ^ 31 := by omega
  have hverdict := bodyVerdict_layout rt hname hlong hcreate
  rw [hm.parse_serialize d p hd hp] at hverdict
  have hframe : (frame rt m).length = (layout rt (rt.typeName m) (rt.serialize m)).length + 4 := by
    rw [frame,List.length_append,beBytes_length,Nat.add_comm]
  have hfield : int32At ((frame rt m).take 4) = ((layout rt (rt.typeName m) (rt.serialize m)).length : Int) := by
    rw [frame,List.take_left' (beBytes_length ..),int32At_beBytes,castInt32_natCast (by omega)]
  have hbody : ((frame rt m).drop 4).take (layout rt (rt.typeName m) (rt.serialize m)).length =
      layout rt (rt.typeName m) (rt.serialize m) := by
    rw [frame,List.drop_left' (beBytes_length ..),List.take_length]
  change look rt (frame rt m) = _
  rw [look,if_neg (by omega),hfield,lookFrame,Int.toNat_natCast,hbody,hverdict,if_neg,if_neg (by omega),hframe]
  · rfl
  · rw [maxMessageLength,minMessageLength,headerLength]
    omega

/-- One empty buffer for each message: all are filled, with the messages' frames. -/
theorem fill_all (hparse : ParsesInitialized rt) {ms : List Msg}
    (hms : ∀ m ∈ ms, Registered rt m ∧ Faithful rt m ∧
      ((layout rt (rt.typeName m) (rt.serialize m)).length : Int) ≤ maxMessageLength)
    {empties : List Buffer} (hempties : ∀ b ∈ empties, b.WF ∧ b.readable = [])
    (hlen : empties.length = ms.length) :
    ∃ filled : List Buffer,
      List.zipWith (fun b m => fillEmptyBuffer rt (some b) m) empties ms = filled.map .ok ∧
        filled.map Buffer.readable = ms.map (frame rt) := by
  induction ms generalizing empties with
  | nil => exact ⟨[],by simp,rfl⟩
  | cons m ms ih =>
    obtain ⟨b,empties,rfl⟩ := List.exists_cons_of_length_eq_add_one hlen
    obtain ⟨⟨d,p,hd,hp⟩,hm,hmax⟩ := hms m List.mem_cons_self
    obtain ⟨hwf,he⟩ := hempties b List.mem_cons_self
    rw [layout_length,maxMessageLength] at hmax
    obtain ⟨b',hfill,-,hread⟩ := fillEmptyBuffer_ok rt hwf he hm.byteSize_eq
      (hparse _ _ _ (hm.parse_serialize d p hd hp)) (by omega)
    obtain ⟨filled,hfilled,hreads⟩ := ih (fun m h => hms m (List.mem_cons_of_mem _ h))
      (fun b h => hempties b (List.mem_cons_of_mem _ h)) (Nat.succ.inj hlen)
    exact ⟨b' :: filled,by rw [List.zipWith_cons_cons,hfill,hfilled,List.map_cons],
      by rw [List.map_cons,hread,hreads,List.map_cons]⟩

/-- The frames of any messages, cut into any chunks: each message comes out once,
in order, in the call that brings the last byte of its frame; no error is
reported and the input buffer ends empty. -/
theorem receive_fragmented_frames (cb : Buffer → ErrorCode → Buffer) (hparse : ParsesInitialized rt)
    (ms : List Msg) (hms : ∀ m ∈ ms, Registered rt m ∧ Faithful rt m ∧ rt.typeName m ≠ [] ∧
      ((layout rt (rt.typeName m) (rt.serialize m)).length : Int) ≤ maxMessageLength)
    (empties : List Buffer) (hempties : ∀ b ∈ empties, BufferQueue.Reached b ∧ b.readable = [])
    (hlen : empties.length = ms.length)
    (input : Buffer) (hinput : BufferQueue.Reached input) (hempty : input.readable = []) :
    ∃ filled : List Buffer,
      List.zipWith (fun b m => fillEmptyBuffer rt (some b) m) empties ms = filled.map .ok ∧
      ∀ chunks : List (List UInt8), chunks.flatten = (filled.map Buffer.readable).flatten →
        ∃ b calls, receive rt cb input chunks = .ok (b,calls) ∧ b.readable = [] ∧
          calls.length = chunks.length ∧ calls.flatten = ms.map .message ∧
          ∀ i < ms.length, ∀ j, i < (calls.take j).flatten.length ↔
            ((filled.take (i+1)).map Buffer.readable).flatten.length ≤ (chunks.take j).flatten.length := by
  obtain ⟨filled,hfilled,hreads⟩ := fill_all rt hparse
    (fun m h => ⟨(hms m h).1,(hms m h).2.1,(hms m h).2.2.2⟩) (fun b h => ⟨(hempties b h).1.wf,(hempties b h).2⟩) hlen
  refine ⟨filled,hfilled,fun chunks hcut => ?_⟩
  rw [hreads] at hcut
  have hall : List.Forall₂ (decoder rt).Encodes ms (ms.map (frame rt)) := by
    rw [List.forall₂_map_right_iff]
    exact List.forall₂_same.mpr fun m h => encodes_frame rt (hms m h).1 (hms m h).2.1 (hms m h).2.2.1 (hms m h).2.2.2
  obtain ⟨hrest,herr,hvalues⟩ := Decoder.feed_frames hall hcut
  obtain ⟨b,-,hread,hrun⟩ := receive_ok rt cb hinput.wf chunks (.inl (by rwa [hempty]))
  rw [hempty] at hread hrun
  -- without errors the callbacks are the decoded messages
  have hcalls : ((decoder rt).feed [] chunks).1.map (fun c => events c.1 c.2) =
      ((decoder rt).feed [] chunks).1.map fun c => c.1.map .message := by
    refine List.map_congr_left fun c hc => ?_
    rw [events,herr c hc]
    exact List.append_nil _
  have hshare : ∀ j, ((((decoder rt).feed [] chunks).1.map fun c => c.1.map Event.message).take j).flatten =
      (ms.take (Decoder.complete (ms.map (frame rt)) (chunks.take j).flatten.length)).map .message := by
    intro j
    rw [← hvalues,← List.map_take,List.flatMap_def,List.map_flatten,List.map_map]
    rfl
  refine ⟨b,_,hrun,hread.trans hrest,?_,?_,?_⟩
  · rw [List.length_map,Decoder.feed_length]
  · rw [hcalls]
    have hp := hshare chunks.length
    rwa [List.take_length,hcut,Decoder.complete_all,List.length_map,List.take_length,
      List.take_of_length_le (by rw [List.length_map,Decoder.feed_length])] at hp
  · intro i hi j
    rw [hcalls,hshare,List.length_map,List.length_take,List.map_take,hreads]
    have hiff := Decoder.lt_complete_iff (ms.map (frame rt)) (chunks.take j).flatten.length i
    rw [List.length_map] at hiff
    rw [lt_min_iff,hiff]
    exact ⟨fun h => h.1.2,fun h => ⟨⟨hi,h⟩,hi⟩⟩

/-- The checksum of the zlib library: two sums modulo the largest 16-bit prime. -/
def zlibAdler32 (adler : Nat) (bytes : List UInt8) : Nat :=
  let r := bytes.foldl (fun s x => let a := (s.1 + x.toNat) % 65521; (a,(s.2 + a) % 65521))
    (adler % 65536,adler / 65536)
  r.2 * 65536 + r.1

/-- The type Test.Empty, whose one optional field holds a small number or is absent. -/
def emptyRuntime : Runtime (Option (Fin 128)) Unit where
  typeName _ := [84,101,115,116,46,69,109,112,116,121]
  isInitialized _ := true
  byteSize m := if m.isSome then 2 else 0
  serialize m := m.elim [] fun v => [8,UInt8.ofNat v]
  findMessageTypeByName name := if name = [84,101,115,116,46,69,109,112,116,121] then some () else none
  getPrototype _ := some none
  new _ := none
  parseFromArray _ bytes := match bytes with
    | [] => (none,true)
    | [8,v] => if h : v.toNat < 128 then (some ⟨v.toNat,h⟩,true) else (none,false)
    | _ => (none,false)
  adler32 := zlibAdler32

/-- Two messages of that type, sent byte by byte. -/
theorem receive_fragmented_frames_bytewise :
    ∃ filled : List Buffer,
      List.zipWith (fun b m => fillEmptyBuffer emptyRuntime (some b) m) [.new,.new] [none,some 43] =
        filled.map .ok ∧
      ∃ b calls, receive emptyRuntime (fun b _ => b) .new
          ((filled.map Buffer.readable).flatten.map fun x => [x]) = .ok (b,calls) ∧
        b.readable = [] ∧ calls.flatten = [.message none,.message (some 43)] := by
  have hms : ∀ m ∈ [none,some (43 : Fin 128)], Registered emptyRuntime m ∧ Faithful emptyRuntime m ∧
      emptyRuntime.typeName m ≠ [] ∧
      ((layout emptyRuntime (emptyRuntime.typeName m) (emptyRuntime.serialize m)).length : Int) ≤ maxMessageLength := by
    intro m hm
    refine ⟨⟨(),none,rfl,rfl⟩,?_,List.cons_ne_nil _ _,?_⟩
    · rcases List.mem_pair.mp hm with rfl | rfl
      · exact ⟨by decide,fun d p _ _ => by rfl⟩
      · exact ⟨by decide,fun d p _ _ => by rfl⟩
    · rcases List.mem_pair.mp hm with rfl | rfl <;> rw [layout_length] <;> decide
  obtain ⟨filled,hfilled,hall⟩ := receive_fragmented_frames emptyRuntime (fun b _ => b) (fun _ _ _ _ => rfl)
    [none,some 43] hms [.new,.new] (by simp [BufferQueue.reached_new,Buffer.readable_new]) rfl
    .new BufferQueue.reached_new Buffer.readable_new
  obtain ⟨b,calls,hrun,hread,-,hevents,-⟩ := hall ((filled.map Buffer.readable).flatten.map fun x => [x])
    (by rw [← List.flatMap_def]; exact List.flatMap_singleton' _)
  exact ⟨filled,hfilled,b,calls,hrun,hread,hevents⟩

end LinuxServer.Protobuf
