import LinuxServer.Protobuf.Fragmentation

/-! What Parse accepts is what the encoder's layout prescribes, but for the
byte behind the name. -/
namespace LinuxServer.Protobuf
open LinuxServer.Lib LinuxServer.Reactor
variable {Msg Descriptor : Type} (rt : Runtime Msg Descriptor)

/-! The parts of a body, where the parser takes them from. -/

def nameLengthOf (body : List UInt8) : Nat := (int32At (body.take 4)).toNat
def typeNameOf (body : List UInt8) : List UInt8 := (body.drop 4).take (nameLengthOf body - 1)
/-- The last of the bytes that the name length counts. -/
def terminatorOf (body : List UInt8) : UInt8 := (body.drop (nameLengthOf body + 3)).headD 0
def payloadOf (body : List UInt8) : List UInt8 :=
  (body.drop (4 + nameLengthOf body)).take (body.length - nameLengthOf body - 8)

/-- The frame body for a type name and a payload, with any byte behind the name. -/
def layoutWith (terminator : UInt8) (name payload : List UInt8) : List UInt8 :=
  let covered := beBytes 4 (name.length + 1) ++ (name ++ [terminator]) ++ payload
  covered ++ beBytes 4 (rt.adler32 1 covered)

theorem layoutWith_zero (name payload : List UInt8) : layoutWith rt 0 name payload = layout rt name payload := rfl

theorem layoutWith_inj {c d : UInt8} {name payload : List UInt8} :
    layoutWith rt c name payload = layoutWith rt d name payload ↔ c = d := by
  constructor
  · intro h
    have hcut := List.append_inj_left h (by simp only [List.length_append,beBytes_length,List.length_singleton])
    have hname := List.append_cancel_left (List.append_cancel_right hcut)
    exact List.singleton_inj.mp (List.append_cancel_left hname)
  · intro h
    rw [h]

/-- A body that is accepted is long enough for both its lengths. -/
private theorem accepted_long {body tail : List UInt8} {m : Msg}
    (h : parse rt (body ++ tail) body.length = .ok (some m,.noError)) : 8 ≤ body.length := by
  rw [parse] at h
  obtain ⟨sum,-,h⟩ := (bind_ok_iff _ _ _).mp h
  obtain ⟨n,-,h⟩ := (bind_ok_iff _ _ _).mp h
  obtain ⟨covered,-,h⟩ := (bind_ok_iff _ _ _).mp h
  simp only at h
  split at h
  · obtain ⟨k,-,h⟩ := (bind_ok_iff _ _ _).mp h
    obtain ⟨nameMax,hmax,h⟩ := (bind_ok_iff _ _ _).mp h
    have hlimit := (int32_ok_iff.mp hmax).2
    rw [headerLength] at hlimit
    split at h
    · omega
    · cases h
  · cases h

private theorem cut_body (body : List UInt8) {k : Nat} (hk : 2 ≤ k) (hn : k + 8 ≤ body.length) :
    body = body.take 4 ++ ((body.drop 4).take (k - 1) ++ [(body.drop (k + 3)).headD 0]) ++
      (body.drop (4 + k)).take (body.length - k - 8) ++ body.drop (body.length - 4) := by
  have hrest : (body.drop (4 + k)).take (body.length - k - 8) ++ body.drop (body.length - 4) = body.drop (4 + k) := by
    have hend : body.drop (body.length - 4) = (body.drop (4 + k)).drop (body.length - k - 8) := by
      rw [List.drop_drop]
      congr 1
      omega
    rw [hend,List.take_append_drop]
  have hterm : [(body.drop (k + 3)).headD 0] ++ body.drop (4 + k) = body.drop (k + 3) := by
    cases hd : body.drop (k + 3) with
    | nil =>
      rw [List.drop_eq_nil_iff] at hd
      omega
    | cons c rest =>
      have htail : body.drop (4 + k) = rest := by
        rw [show 4 + k = k + 3 + 1 by omega,← List.drop_drop,hd]
        rfl
      rw [htail]
      rfl
  have hname : (body.drop 4).take (k - 1) ++ body.drop (k + 3) = body.drop 4 := by
    have hend : body.drop (k + 3) = (body.drop 4).drop (k - 1) := by
      rw [List.drop_drop]
      congr 1
      omega
    rw [hend,List.take_append_drop]
  rw [List.append_assoc,hrest,List.append_assoc,List.append_assoc,hterm,hname,List.take_append_drop]

/-- Every byte of an accepted body but the terminator is checked or carried into the result. -/
theorem accepted_eq_layoutWith {body tail : List UInt8} {m : Msg} (hmax : body.length < 2 ^ 31)
    (h : parse rt (body ++ tail) body.length = .ok (some m,.noError)) :
    ∃ p, createMessage rt (typeNameOf body) = some p ∧ rt.parseFromArray p (payloadOf body) = (m,true) ∧
      body = layoutWith rt (terminatorOf body) (typeNameOf body) (payloadOf body) := by
  have hmin := accepted_long rt h
  rw [parse_ok rt body tail hmin hmax] at h
  have hverdict := Except.ok.inj h
  rw [bodyVerdict] at hverdict
  split at hverdict
  · rename_i hsum
    simp only at hverdict
    split at hverdict
    · rename_i hname
      obtain ⟨k,hk⟩ := Int.eq_ofNat_of_zero_le (show 0 ≤ int32At (body.take 4) by omega)
      have hlen : nameLengthOf body = k := by
        rw [nameLengthOf,hk,Int.toNat_natCast]
      rw [hk] at hname
      rw [hk,Int.toNat_natCast,← hlen] at hverdict
      split at hverdict
      · rename_i p hp
        obtain ⟨hm,hsuccess⟩ := Prod.mk.inj hverdict
        refine ⟨p,hp,?_,?_⟩
        · apply Prod.ext
          · exact Option.some.inj hm
          · by_contra hfail
            have hparseError := hsuccess.symm.trans (if_neg hfail)
            cases hparseError
        · have hcut := cut_body body (k := nameLengthOf body) (by omega) (by omega)
          have hfield : beBytes 4 ((typeNameOf body).length + 1) = body.take 4 := by
            have hname : (typeNameOf body).length + 1 = k := by
              rw [typeNameOf,hlen,List.length_take,List.length_drop]
              omega
            rw [hname]
            have hfour : (body.take 4).length = 4 := by
              rw [List.length_take]
              omega
            exact beBytes_int32At hfour hk
          have hcovered := List.append_cancel_right ((List.take_append_drop (body.length - 4) body).trans hcut)
          rw [← hfield] at hcovered
          change _ = beBytes 4 ((typeNameOf body).length + 1) ++ (typeNameOf body ++ [terminatorOf body]) ++ payloadOf body
            at hcovered
          have hfour : (body.drop (body.length - 4)).length = 4 := by
            rw [List.length_drop]
            omega
          have hlast := beBytes_of_int32At hfour hsum
          rw [layoutWith,← hcovered,hlast,List.take_append_drop]
      · cases hverdict
    · cases hverdict
  · cases hverdict

/-- An accepted body is the layout of its own name and payload if and only if its name
is terminated by NUL, and such bodies with one name and one payload differ in nothing
but the terminator and the checksum that it entails. -/
theorem accepted_canonical_iff (body tail : List UInt8) (nLength : BitVec 32) (hlen : nLength.toInt = body.length)
    (m : Msg) (h : parse rt (body ++ tail) nLength.toInt = .ok (some m,.noError)) :
    (∃ p, createMessage rt (typeNameOf body) = some p ∧ rt.parseFromArray p (payloadOf body) = (m,true)) ∧
      body = layoutWith rt (terminatorOf body) (typeNameOf body) (payloadOf body) ∧
      (body = layout rt (typeNameOf body) (payloadOf body) ↔ terminatorOf body = 0) ∧
      ∀ (body₂ tail₂ : List UInt8) (nLength₂ : BitVec 32) (m₂ : Msg), nLength₂.toInt = body₂.length →
        parse rt (body₂ ++ tail₂) nLength₂.toInt = .ok (some m₂,.noError) →
        typeNameOf body₂ = typeNameOf body → payloadOf body₂ = payloadOf body →
        (body₂ = body ↔ terminatorOf body₂ = terminatorOf body) := by
  have hint : ∀ {n : BitVec 32} {b : List UInt8}, n.toInt = b.length → b.length < 2 ^ 31 := by
    intro n b hn
    have := n.toInt_lt
    omega
  rw [hlen] at h
  obtain ⟨p,hp,hparsed,hbody⟩ := accepted_eq_layoutWith rt (hint hlen) h
  refine ⟨⟨p,hp,hparsed⟩,hbody,?_,?_⟩
  · rw [← layoutWith_zero]
    conv_lhs => lhs; rw [hbody]
    exact layoutWith_inj rt
  · intro body₂ tail₂ nLength₂ m₂ hlen₂ h₂ hname hpayload
    rw [hlen₂] at h₂
    obtain ⟨-,-,-,hbody₂⟩ := accepted_eq_layoutWith rt (hint hlen₂) h₂
    rw [hname,hpayload] at hbody₂
    constructor
    · intro heq
      rw [heq]
    · intro hterm
      rw [hbody₂,hterm,← hbody]

/-- The body of an empty message. -/
def emptyBody : List UInt8 := layout emptyRuntime (emptyRuntime.typeName none) []
/-- The same with a one behind the name. -/
def oddBody : List UInt8 := layoutWith emptyRuntime 1 (emptyRuntime.typeName none) []

/-- It is accepted, and is the layout of what was read from it. -/
theorem accepted_canonical_iff_empty : emptyBody = layout emptyRuntime (typeNameOf emptyBody) (payloadOf emptyBody) := by
  obtain ⟨-,-,hiff,-⟩ := accepted_canonical_iff emptyRuntime emptyBody [] 19 (by decide) none (by decide +kernel)
  exact hiff.mpr (by decide)

/-- The body that ends its name with a one is accepted too, with the same name and payload. -/
theorem accepted_not_canonical :
    parse emptyRuntime oddBody oddBody.length = .ok (some none,.noError) ∧
      oddBody ≠ layout emptyRuntime (typeNameOf oddBody) (payloadOf oddBody) ∧
      parse emptyRuntime emptyBody emptyBody.length = .ok (some none,.noError) ∧
      typeNameOf oddBody = typeNameOf emptyBody ∧ payloadOf oddBody = payloadOf emptyBody ∧ oddBody ≠ emptyBody := by
  refine ⟨by decide +kernel,by decide,by decide +kernel,by decide,by decide,by decide⟩

end LinuxServer.Protobuf
