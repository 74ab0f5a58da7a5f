import LinuxServer.Protobuf.Wire

/-! A coded stream as the protobuf library has it, with varints for the numbers, and with
unknown fields as long as they are varints. -/
namespace LinuxServer.Protobuf.Varint
open LinuxServer.Lib

/-- Groups of seven bits, the low ones first; all but the last have the high bit. -/
def encode : Nat → Nat → List UInt8
  | 0, n => [UInt8.ofNat n]
  | groups+1, n => if n < 128 then [UInt8.ofNat n] else UInt8.ofNat (n % 128 + 128) :: encode groups (n / 128)

def decode : Nat → List UInt8 → Option (Nat × List UInt8)
  | 0, _ => none
  | _+1, [] => none
  | groups+1, b :: rest =>
    if b.toNat < 128 then some (b.toNat,rest)
    else (decode groups rest).map fun p => (b.toNat - 128 + 128 * p.1,p.2)

private theorem toNat_ofNat {n : Nat} (h : n < 256) : (UInt8.ofNat n).toNat = n := by
  rw [UInt8.toNat_ofNat']
  exact Nat.mod_eq_of_lt h

theorem decode_encode {groups n : Nat} (h : n < 128 ^ (groups + 1)) {limit : Nat} (hlimit : groups < limit) (rest : List UInt8) :
    decode limit (encode groups n ++ rest) = some (n,rest) := by
  obtain ⟨k,rfl⟩ := Nat.exists_eq_succ_of_ne_zero (Nat.ne_zero_of_lt hlimit)
  induction groups generalizing n k with
  | zero =>
    have hn : n < 128 := h
    rw [encode,List.singleton_append,decode,toNat_ofNat (by omega),if_pos hn]
  | succ groups ih =>
    rw [encode]
    split
    · rename_i hn
      rw [List.singleton_append,decode,toNat_ofNat (by omega),if_pos hn]
    · rename_i hn
      obtain ⟨k,rfl⟩ := Nat.exists_eq_succ_of_ne_zero (show k ≠ 0 by omega)
      have hq : n / 128 < 128 ^ (groups + 1) := by
        rw [Nat.div_lt_iff_lt_mul (by decide),← pow_succ]
        exact h
      rw [List.cons_append,decode,toNat_ofNat (by omega),if_neg (by omega),ih hq k (by omega),Option.map_some,Option.some.injEq,
        Prod.mk.injEq]
      exact ⟨by omega,rfl⟩

theorem decode_shorter {limit n : Nat} {input rest : List UInt8} (h : decode limit input = some (n,rest)) :
    rest.length < input.length := by
  induction input generalizing limit n with
  | nil => cases limit <;> cases h
  | cons b input ih =>
    cases limit with
    | zero => cases h
    | succ limit =>
      rw [decode] at h
      split at h
      · cases h
        exact Nat.lt_succ_self _
      · obtain ⟨⟨n',rest'⟩,hrest,heq⟩ := Option.map_eq_some_iff.mp h
        cases heq
        exact (ih hrest).trans (Nat.lt_succ_self _)

/-- An unknown field with a varint. -/
structure UnknownField where
  tag : Nat
  pos : 0 < tag
  small : tag < 2 ^ 32
  varint : tag % 8 = 0
  value : BitVec 64
  deriving DecidableEq

def readTag (input : List UInt8) : Nat × List UInt8 :=
  match decode 10 input with
  | some (tag,rest) => (tag % 2 ^ 32,rest)
  | none => (0,input)

def readVarint64 (input : List UInt8) : Option (BitVec 64 × List UInt8) :=
  (decode 10 input).map fun p => (BitVec.ofNat 64 p.1,p.2)

def readString (input : List UInt8) : Option (List UInt8 × List UInt8) :=
  match decode 10 input with
  | some (n,rest) => if n < 2 ^ 31 ∧ n ≤ rest.length then some (rest.take n,rest.drop n) else none
  | none => none

def skipField (tag : Nat) (input : List UInt8) : Option (UnknownField × List UInt8) :=
  if h : 0 < tag ∧ tag < 2 ^ 32 ∧ tag % 8 = 0 then
    (readVarint64 input).map fun p => (⟨tag,h.1,h.2.1,h.2.2,p.1⟩,p.2)
  else none

def writeUnknown (f : UnknownField) : List UInt8 := encode 4 f.tag ++ encode 9 f.value.toNat

def stream : CodedStream UnknownField where
  writeTag := encode 4
  writeVarint64 v := encode 9 v.toNat
  writeString s := encode 4 s.length ++ s
  readTag := readTag
  readVarint64 := readVarint64
  readString := readString
  skipField := skipField
  unknownTag := UnknownField.tag
  unknownValue f := encode 9 f.value.toNat
  expectTag tag input := if (readTag input).1 = tag then some (readTag input).2 else none
  expectAtEnd input := input.isEmpty
  int32Size v := .ofNat 32 (encode 9 (v.signExtend 64).toNat).length
  int64Size v := .ofNat 32 (encode 9 v.toNat).length
  stringSize s := .ofNat 32 (encode 4 s.length ++ s).length
  unknownFieldsSize fs := .ofNat 32 (fs.flatMap writeUnknown).length

private theorem readVarint64_write (v : BitVec 64) (rest : List UInt8) : readVarint64 (encode 9 v.toNat ++ rest) = some (v,rest) := by
  have hv : v.toNat < 128 ^ (9 + 1) := v.isLt.trans (by decide)
  rw [readVarint64,decode_encode hv (by decide),Option.map_some,BitVec.ofNat_toNat,BitVec.setWidth_eq]

private theorem readTag_write {tag : Nat} (h : tag < 2 ^ 32) (rest : List UInt8) : readTag (encode 4 tag ++ rest) = (tag,rest) := by
  have htag : tag < 128 ^ (4 + 1) := h.trans (by decide)
  rw [readTag,decode_encode htag (by decide)]
  exact Prod.ext (Nat.mod_eq_of_lt h) rfl

theorem documented : stream.Documented where
  readTag_nil := rfl
  readTag_writeTag _ rest _ h := readTag_write h rest
  readTag_shorter input h := by
    change (readTag input).1 ≠ 0 at h
    change (readTag input).2.length < input.length
    rw [readTag] at h ⊢
    split
    · rename_i hdecode
      exact decode_shorter hdecode
    · rename_i hdecode
      rw [hdecode] at h
      exact absurd rfl h
  readTag_small input := by
    change (readTag input).1 < 2 ^ 32
    rw [readTag]
    split
    · exact Nat.mod_lt _ (by decide)
    · exact Nat.two_pow_pos 32
  readVarint64_write := readVarint64_write
  readVarint64_le input v rest h := by
    obtain ⟨⟨n,rest'⟩,hdecode,heq⟩ := Option.map_eq_some_iff.mp h
    cases heq
    exact (decode_shorter hdecode).le
  readString_write s rest hs := by
    have hlen : s.length < 128 ^ (4 + 1) := hs.trans (by decide)
    change readString (encode 4 s.length ++ s ++ rest) = some (s,rest)
    rw [readString,List.append_assoc,decode_encode hlen (by decide)]
    simp only
    rw [if_pos ⟨hs,by rw [List.length_append]; omega⟩,List.take_left,List.drop_left]
  readString_le input s rest h := by
    change readString input = some (s,rest) at h
    rw [readString] at h
    split at h
    · rename_i n rest' hdecode
      have hle := decode_shorter hdecode
      split at h
      · rename_i hn
        cases h
        rw [List.length_take,List.length_drop]
        omega
      · cases h
    · cases h
  skipField_write f rest := by
    change skipField f.tag (encode 9 f.value.toNat ++ rest) = some (f,rest)
    rw [skipField,dif_pos ⟨f.pos,f.small,f.varint⟩,readVarint64_write]
    rfl
  skipField_le tag input f rest h := by
    change skipField tag input = some (f,rest) at h
    rw [skipField] at h
    split at h
    · obtain ⟨⟨v,rest'⟩,hread,heq⟩ := Option.map_eq_some_iff.mp h
      cases heq
      obtain ⟨⟨n,rest'⟩,hdecode,heq⟩ := Option.map_eq_some_iff.mp hread
      cases heq
      exact ⟨rfl,(decode_shorter hdecode).le⟩
    · cases h
  expectTag_readTag tag input rest h := by
    change (if (readTag input).1 = tag then some (readTag input).2 else none) = some (rest) at h
    split at h
    · rename_i htag
      cases h
      exact Prod.ext htag rfl
    · cases h
  expectAtEnd_nil input h := List.isEmpty_iff.mp h
  writeTag_length tag _ h := by
    change (encode 4 tag).length = 1
    rw [encode,if_pos h,List.length_singleton]
  int32Size_eq _ _ := rfl
  int64Size_eq _ _ := rfl
  stringSize_eq _ _ := rfl
  unknownFieldsSize_eq _ _ := rfl

end LinuxServer.Protobuf.Varint
