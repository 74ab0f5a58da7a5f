import LinuxServer.Lib.RunningSums
import LinuxServer.Protobuf.Canonical

/-! The checksum over what the encoder wrote: one changed byte or one exchange of
neighbours is noticed, wherever it is. -/
namespace LinuxServer.Protobuf
open LinuxServer.Lib LinuxServer.Reactor

/-! The checksum of zlib as two running sums. -/

private def residue (x : UInt8) : ZMod 65521 := (x.toNat : ZMod 65521)

private theorem residue_injective : Function.Injective residue := by
  intro x y h
  have hx := x.toNat_lt
  have hy := y.toNat_lt
  have hmod := (ZMod.natCast_eq_natCast_iff' _ _ _).mp h
  rw [Nat.mod_eq_of_lt (by omega),Nat.mod_eq_of_lt (by omega)] at hmod
  exact UInt8.toNat.inj hmod

private def zlibStep (s : Nat × Nat) (x : UInt8) : Nat × Nat :=
  let a := (s.1 + x.toNat) % 65521
  (a,(s.2 + a) % 65521)

private theorem zlib_fold (bytes : List UInt8) (s : Nat × Nat) (hs : s.1 < 65521 ∧ s.2 < 65521) :
    ((bytes.foldl zlibStep s).1 < 65521 ∧ (bytes.foldl zlibStep s).2 < 65521) ∧
      (((bytes.foldl zlibStep s).1 : ZMod 65521),((bytes.foldl zlibStep s).2 : ZMod 65521)) =
        runningSums ((s.1 : ZMod 65521),(s.2 : ZMod 65521)) (bytes.map residue) := by
  induction bytes generalizing s with
  | nil => exact ⟨hs,rfl⟩
  | cons x bytes ih =>
    have hnext : (zlibStep s x).1 < 65521 ∧ (zlibStep s x).2 < 65521 :=
      ⟨Nat.mod_lt _ (by norm_num),Nat.mod_lt _ (by norm_num)⟩
    obtain ⟨hlt,hsums⟩ := ih _ hnext
    have hadd : (((zlibStep s x).1 : ZMod 65521),((zlibStep s x).2 : ZMod 65521)) =
        addTo ((s.1 : ZMod 65521),(s.2 : ZMod 65521)) (residue x) := by
      simp only [zlibStep,addTo,residue,ZMod.natCast_mod,Nat.cast_add]
    refine ⟨hlt,?_⟩
    rw [List.foldl_cons,List.map_cons,runningSums_cons,← hadd]
    exact hsums

private theorem zlibAdler32_eq (bytes : List UInt8) :
    zlibAdler32 1 bytes = (bytes.foldl zlibStep (1,0)).2 * 65536 + (bytes.foldl zlibStep (1,0)).1 := rfl

private theorem zlibAdler32_lt (bytes : List UInt8) : zlibAdler32 1 bytes < 2 ^ 32 := by
  obtain ⟨hlt,-⟩ := zlib_fold bytes (1,0) (by norm_num)
  rw [zlibAdler32_eq]
  omega

private theorem zlibAdler32_ne {xs ys : List UInt8}
    (h : runningSums (1,0) (xs.map residue) ≠ runningSums (1,0) (ys.map residue)) :
    zlibAdler32 1 xs ≠ zlibAdler32 1 ys := by
  intro heq
  obtain ⟨hx,hxs⟩ := zlib_fold xs (1,0) (by norm_num)
  obtain ⟨hy,hys⟩ := zlib_fold ys (1,0) (by norm_num)
  rw [zlibAdler32_eq,zlibAdler32_eq] at heq
  have hfst : (xs.foldl zlibStep (1,0)).1 = (ys.foldl zlibStep (1,0)).1 := by omega
  have hsnd : (xs.foldl zlibStep (1,0)).2 = (ys.foldl zlibStep (1,0)).2 := by omega
  rw [hfst,hsnd,hys] at hxs
  simp only [Nat.cast_one,Nat.cast_zero] at hxs
  exact h hxs.symm

/-- Bytes that differ in one place have different checksums. -/
theorem zlibAdler32_replace {x y : UInt8} (h : x ≠ y) (p q : List UInt8) :
    zlibAdler32 1 (p ++ x :: q) ≠ zlibAdler32 1 (p ++ y :: q) := by
  apply zlibAdler32_ne
  simp only [List.map_append,List.map_cons]
  exact runningSums_replace (residue_injective.ne h) _ _ _
theorem zlibAdler32_exchange {x y : UInt8} (h : x ≠ y) (p q : List UInt8) :
    zlibAdler32 1 (p ++ x :: y :: q) ≠ zlibAdler32 1 (p ++ y :: x :: q) := by
  apply zlibAdler32_ne
  simp only [List.map_append,List.map_cons]
  exact runningSums_exchange (residue_injective.ne h) _ _ _

section Codec
variable {Msg Descriptor : Type} (rt : Runtime Msg Descriptor)

private theorem append_inv {b b' : Buffer} (hb : b.WF) {data : List UInt8} (h : b.append data = .ok b') :
    b'.WF ∧ b'.readable = b.readable ++ data := by
  obtain ⟨b₁,h₁,hwf,hread,-⟩ := Buffer.append_ok hb data
  cases h.symm.trans h₁
  exact ⟨hwf,hread⟩

private theorem store_inv {b b' : Buffer} (hb : b.WF) {data : List UInt8} (h : b.store data = .ok b') :
    (b'.hasWritted data.length).WF ∧ (b'.hasWritted data.length).readable = b.readable ++ data := by
  obtain ⟨v,hv,-⟩ := (bind_ok_iff _ _ _).mp h
  obtain ⟨_,hfit,-⟩ := (bind_ok_iff _ _ _).mp hv
  rw [ensure_ok_iff] at hfit
  have hroom : data.length ≤ b.writeableBytes := by
    rw [hb.writeableBytes_eq]
    omega
  obtain ⟨b₁,h₁,-,-,-,hwf,hread⟩ := Buffer.store_ok hb hroom
  cases h.symm.trans h₁
  exact ⟨hwf,hread⟩

private theorem prepend_inv {b b' : Buffer} (hb : b.WF) {data : List UInt8} (h : b.prepend data = .ok b') :
    b'.readable = data ++ b.readable := by
  obtain ⟨_,hroom,-⟩ := (bind_ok_iff _ _ _).mp h
  obtain ⟨b₁,h₁,-,hread⟩ := Buffer.prepend_ok hb ((ensure_ok_iff _ _ _).mp hroom)
  cases h.symm.trans h₁
  exact hread

private theorem ensureWritableBytes_inv {b b' : Buffer} (hb : b.WF) {n : Nat} (h : b.ensureWritableBytes n = .ok b') :
    b'.WF ∧ b'.readable = b.readable := by
  obtain ⟨b₁,h₁,hwf,hread,-,-⟩ := Buffer.ensureWritableBytes_ok hb n
  cases h.symm.trans h₁
  exact ⟨hwf,hread⟩

/-- What the encoder leaves in the buffer, whatever the message: bytes with their checksum. -/
theorem fillEmptyBuffer_sealed {b b' : Buffer} (hb : b.WF) {m : Msg} (hfill : fillEmptyBuffer rt (some b) m = .ok b')
    (hmax : (b'.readable.drop 4).length < 2 ^ 31) :
    ∃ bytes : List UInt8, 4 ≤ bytes.length ∧ b'.readable.drop 4 = bytes ++ beBytes 4 (rt.adler32 1 bytes) := by
  simp only [fillEmptyBuffer,bind_ok_iff,ensure_ok_iff] at hfill
  obtain ⟨_,hempty,b₁,h₁,name,-,b₂,h₂,_,-,b₃,h₃,b₄,h₄,_,hsize,covered,hcovered,b₆,h₆,_,-,hprepend⟩ := hfill
  have hnil : b.readable = [] := by
    rw [← List.length_eq_zero_iff,hb.readable_length,← hempty]
  obtain ⟨hwf₁,hread₁⟩ := append_inv hb h₁
  obtain ⟨hwf₂,hread₂⟩ := append_inv hwf₁ h₂
  obtain ⟨hwf₃,hread₃⟩ := ensureWritableBytes_inv hwf₂ h₃
  obtain ⟨hwf₅,hread₅⟩ := store_inv hwf₃ h₄
  have hannounced : castSize (rt.byteSize m).toInt = (rt.serialize m).length := by
    have := (rt.byteSize m).toInt_lt
    rw [← hsize]
    exact castSize_natCast (by omega)
  rw [hannounced] at hcovered h₆
  obtain ⟨hwf₆,hread₆⟩ := append_inv hwf₅ h₆
  have hdrop : b'.readable.drop 4 = b₆.readable := by
    rw [prepend_inv hwf₆ hprepend,List.drop_left' (by simp only [memoryBytes,leBytes_length])]
  rw [hdrop,hread₆,wire32] at hmax
  -- the length fits, so the checksum covers all that is readable
  have hlen := hwf₅.readable_length
  rw [List.length_append,beBytes_length] at hmax
  rw [castUInt_castInt32 (by omega),Buffer.peek_ok hwf₅ le_rfl,← hlen,List.take_length] at hcovered
  cases hcovered
  refine ⟨_,?_,by rw [hdrop,hread₆,wire32]⟩
  rw [hread₅,hread₃,hread₂,hread₁]
  simp only [List.length_append,memoryBytes,leBytes_length]
  omega

/-- A body whose last four bytes are not the checksum of the others. -/
theorem parse_checkSumError {bytes last : List UInt8} (tail : List UInt8) (hbytes : 4 ≤ bytes.length)
    (hlast : last.length = 4) (hmax : bytes.length + 4 < 2 ^ 31) (h : beBytes 4 (rt.adler32 1 bytes) ≠ last) :
    parse rt ((bytes ++ last) ++ tail) (bytes ++ last).length = .ok (none,.checkSumError) := by
  have hlen : (bytes ++ last).length = bytes.length + 4 := by
    rw [List.length_append,hlast]
  have hcut : (bytes ++ last).length - 4 = bytes.length := by omega
  have hsum : castInt32 (rt.adler32 1 bytes) ≠ int32At last := fun heq => h (beBytes_of_int32At hlast heq)
  rw [parse_ok rt _ tail (by omega) (by omega),bodyVerdict,hcut,List.take_left,List.drop_left,if_neg hsum]

/-- Other bytes under the checksum of what was there. -/
theorem parse_changed {bytes bytes' : List UInt8} (hz : ∀ data, rt.adler32 1 data = zlibAdler32 1 data)
    (tail : List UInt8) (hbytes : 4 ≤ bytes.length) (hlen : bytes'.length = bytes.length)
    (hmax : bytes.length + 4 < 2 ^ 31) (h : zlibAdler32 1 bytes' ≠ zlibAdler32 1 bytes) :
    parse rt ((bytes' ++ beBytes 4 (rt.adler32 1 bytes)) ++ tail) (bytes' ++ beBytes 4 (rt.adler32 1 bytes)).length =
      .ok (none,.checkSumError) := by
  refine parse_checkSumError rt tail (by omega) (beBytes_length ..) (by omega) fun heq => ?_
  have hvalue := congrArg ofBeBytes heq
  have hsmall := zlibAdler32_lt bytes
  have hsmall' := zlibAdler32_lt bytes'
  rw [ofBeBytes_beBytes,ofBeBytes_beBytes,hz,hz] at hvalue
  omega

private theorem exists_split {α : Type} {l : List α} {i : Nat} {x : α} (h : l[i]? = some x) :
    ∃ p q, l = p ++ x :: q ∧ p.length = i := by
  obtain ⟨hi,rfl⟩ := List.getElem?_eq_some_iff.mp h
  refine ⟨l.take i,l.drop (i + 1),?_,List.length_take_of_le hi.le⟩
  rw [List.getElem_cons_drop,List.take_append_drop]

private theorem set_split {α : Type} (p q : List α) (x v : α) : (p ++ x :: q).set p.length v = p ++ v :: q := by
  rw [List.set_append_right _ _ le_rfl,Nat.sub_self,List.set_cons_zero]

private theorem parse_replaced (hz : ∀ data, rt.adler32 1 data = zlibAdler32 1 data) {bytes last : List UInt8}
    (hlast : last = beBytes 4 (rt.adler32 1 bytes)) (tail : List UInt8) (hbytes : 4 ≤ bytes.length)
    (hmax : bytes.length + 4 < 2 ^ 31) {i : Nat} {x v : UInt8} (hx : (bytes ++ last)[i]? = some x) (hv : v ≠ x) :
    parse rt ((bytes ++ last).set i v ++ tail) ((bytes ++ last).set i v).length = .ok (none,.checkSumError) := by
  have hfour : last.length = 4 := by
    rw [hlast,beBytes_length]
  by_cases hi : i < bytes.length
  · rw [List.getElem?_append_left hi] at hx
    obtain ⟨p,q,rfl,rfl⟩ := exists_split hx
    rw [List.set_append_left _ _ hi,set_split,hlast]
    exact parse_changed rt hz tail hbytes (by simp only [List.length_append,List.length_cons]) hmax
      (zlibAdler32_replace hv p q)
  · -- the changed byte is one of the checksum's own
    have hi := Nat.le_of_not_lt hi
    rw [List.getElem?_append_right hi] at hx
    obtain ⟨p,q,rfl,hp⟩ := exists_split hx
    rw [List.set_append_right _ _ hi,← hp,set_split]
    refine parse_checkSumError rt tail hbytes ?_ hmax ?_
    · simpa only [List.length_append,List.length_cons] using hfour
    · rw [← hlast]
      intro heq
      exact hv (List.head_eq_of_cons_eq (List.append_cancel_left heq)).symm

private theorem parse_exchanged (hz : ∀ data, rt.adler32 1 data = zlibAdler32 1 data) {bytes last : List UInt8}
    (hlast : last = beBytes 4 (rt.adler32 1 bytes)) (tail : List UInt8) (hbytes : 4 ≤ bytes.length)
    (hmax : bytes.length + 4 < 2 ^ 31) {i : Nat} {x y : UInt8} (hx : bytes[i]? = some x) (hy : bytes[i+1]? = some y)
    (hxy : x ≠ y) :
    parse rt (((bytes ++ last).set i y).set (i+1) x ++ tail) (((bytes ++ last).set i y).set (i+1) x).length =
      .ok (none,.checkSumError) := by
  obtain ⟨p,r,rfl,rfl⟩ := exists_split hx
  have hr : r[0]? = some y := by
    have hright : (p ++ x :: r)[p.length + 1]? = (x :: r)[p.length + 1 - p.length]? :=
      List.getElem?_append_right (Nat.le_succ _)
    rw [hy,Nat.add_sub_cancel_left] at hright
    exact hright.symm
  cases r with
  | nil => cases hr
  | cons c q =>
    cases hr
    have hswap : ((p ++ x :: y :: q ++ last).set p.length y).set (p.length + 1) x = p ++ y :: x :: q ++ last := by
      rw [List.append_assoc,List.cons_append,set_split]
      have hnext : p.length + 1 = (p ++ [y]).length := by rw [List.length_append,List.length_singleton]
      rw [hnext,List.cons_append,List.append_cons,set_split]
      simp only [List.append_assoc,List.cons_append,List.nil_append]
    rw [hswap,hlast]
    exact parse_changed rt hz tail hbytes (by simp only [List.length_append,List.length_cons]) hmax
      (zlibAdler32_exchange hxy.symm p q)

/-- In a body that the encoder wrote, one byte that is changed, or two neighbours under
the checksum that are exchanged, make the checksum wrong. -/
theorem corruption_detected (hz : ∀ data, rt.adler32 1 data = zlibAdler32 1 data) {b b' : Buffer}
    (hb : BufferQueue.Reached b) {m : Msg} (hfill : fillEmptyBuffer rt (some b) m = .ok b')
    {body : List UInt8} (hbody : b'.readable.drop 4 = body) (nLength : BitVec 32) (hlen : nLength.toInt = body.length)
    (tail : List UInt8) :
    (∀ i x v, body[i]? = some x → v ≠ x → parse rt (body.set i v ++ tail) nLength.toInt = .ok (none,.checkSumError)) ∧
      ∀ i x y, body[i]? = some x → body[i+1]? = some y → i + 1 < body.length - 4 → x ≠ y →
        parse rt ((body.set i y).set (i+1) x ++ tail) nLength.toInt = .ok (none,.checkSumError) := by
  have hmax : body.length < 2 ^ 31 := by
    have := nLength.toInt_lt
    omega
  obtain ⟨bytes,hbytes,hsealed⟩ := fillEmptyBuffer_sealed rt hb.wf hfill (by rw [hbody]; exact hmax)
  rw [hbody] at hsealed
  subst hsealed
  have hlength : (bytes ++ beBytes 4 (rt.adler32 1 bytes)).length = bytes.length + 4 := by
    rw [List.length_append,beBytes_length]
  rw [hlength] at hmax
  constructor
  · intro i x v hx hv
    have hparse := parse_replaced rt hz rfl tail hbytes hmax hx hv
    rwa [List.length_set,← hlen] at hparse
  · intro i x y hx hy hi hxy
    rw [hlength,Nat.add_sub_cancel] at hi
    rw [List.getElem?_append_left (by omega)] at hx
    rw [List.getElem?_append_left hi] at hy
    have hparse := parse_exchanged rt hz rfl tail hbytes hmax hx hy hxy
    rwa [List.length_set,List.length_set,← hlen] at hparse

end Codec

/-- An empty message: a changed first letter, and the first two letters exchanged. -/
theorem corruption_detected_empty :
    ∃ b', fillEmptyBuffer emptyRuntime (some .new) none = .ok b' ∧
      parse emptyRuntime ((b'.readable.drop 4).set 4 77) 19 = .ok (none,.checkSumError) ∧
      parse emptyRuntime (((b'.readable.drop 4).set 4 101).set 5 84) 19 = .ok (none,.checkSumError) := by
  obtain ⟨b',hfill,-,hread⟩ := fillEmptyBuffer_ok emptyRuntime Buffer.new_wf Buffer.readable_new (m := none)
    (by decide) rfl (by decide)
  have hbody : b'.readable.drop 4 = emptyBody := by
    rw [hread,frame,List.drop_left' (beBytes_length ..)]
    rfl
  obtain ⟨hreplaced,hexchanged⟩ := corruption_detected emptyRuntime (fun _ => rfl) BufferQueue.reached_new hfill hbody 19
    (by decide) []
  refine ⟨b',hfill,?_,?_⟩ <;> rw [hbody]
  · have h := hreplaced 4 84 77 (by decide) (by decide)
    rw [List.append_nil] at h
    exact h
  · have h := hexchanged 4 84 101 (by decide) (by decide) (by decide) (by decide)
    rw [List.append_nil] at h
    exact h

end LinuxServer.Protobuf
