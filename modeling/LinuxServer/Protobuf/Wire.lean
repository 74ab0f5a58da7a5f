import LinuxServer.Lib.Machine

/-! The parsers that the protobuf compiler generates: a loop over tags, and jumps from one
field to the next where its tag is expected. The jumps change nothing. -/
namespace LinuxServer.Protobuf
open LinuxServer.Lib

/-- What the generated classes use of the protobuf library, on the bytes ahead. F is an
unknown field with its number. -/
structure CodedStream (F : Type) where
  writeTag : Nat → List UInt8
  writeVarint64 : BitVec 64 → List UInt8
  /-- The length and the bytes. -/
  writeString : List UInt8 → List UInt8
  /-- Zero at the end of the input. -/
  readTag : List UInt8 → Nat × List UInt8
  readVarint64 : List UInt8 → Option (BitVec 64 × List UInt8)
  readString : List UInt8 → Option (List UInt8 × List UInt8)
  skipField : Nat → List UInt8 → Option (F × List UInt8)
  unknownTag : F → Nat
  /-- What SerializeUnknownFields writes behind the tag. -/
  unknownValue : F → List UInt8
  /-- The bytes behind the tag, if it is seen ahead. -/
  expectTag : Nat → List UInt8 → Option (List UInt8)
  expectAtEnd : List UInt8 → Bool
  int32Size : BitVec 32 → BitVec 32
  int64Size : BitVec 64 → BitVec 32
  stringSize : List UInt8 → BitVec 32
  unknownFieldsSize : List F → BitVec 32

def wireTypeVarint : Nat := 0
def wireTypeLengthDelimited : Nat := 2
def wireTypeEndGroup : Nat := 4

def makeTag (number wireType : Nat) : Nat := number * 8 + wireType
def tagFieldNumber (tag : Nat) : Nat := tag / 8
def tagWireType (tag : Nat) : Nat := tag % 8

section Writers
variable {F : Type} (w : CodedStream F)

def CodedStream.writeInt64Field (number : Nat) (v : BitVec 64) : List UInt8 :=
  w.writeTag (makeTag number wireTypeVarint) ++ w.writeVarint64 v

/-- The sign goes on to the 64th bit. -/
def CodedStream.writeInt32Field (number : Nat) (v : BitVec 32) : List UInt8 :=
  w.writeTag (makeTag number wireTypeVarint) ++ w.writeVarint64 (v.signExtend 64)

def CodedStream.writeStringField (number : Nat) (s : List UInt8) : List UInt8 :=
  w.writeTag (makeTag number wireTypeLengthDelimited) ++ w.writeString s

def CodedStream.serializeUnknownField (f : F) : List UInt8 := w.writeTag (w.unknownTag f) ++ w.unknownValue f
def CodedStream.serializeUnknownFields (fs : List F) : List UInt8 := fs.flatMap w.serializeUnknownField

end Writers

/-- The int is the number of the bytes, where an int can hold it. -/
def IntSize (size : BitVec 32) (bytes : List UInt8) : Prop := bytes.length < 2 ^ 31 → size = .ofNat 32 bytes.length

section Sizes
variable {size size' : BitVec 32} {bytes bytes' : List UInt8}

theorem IntSize.toInt_eq (h : IntSize size bytes) (hlt : bytes.length < 2 ^ 31) : size.toInt = bytes.length := by
  rw [h hlt,BitVec.toInt_ofNat',Int.bmod]
  omega

theorem IntSize.append (h : IntSize size bytes) (h' : IntSize size' bytes') : IntSize (size + size') (bytes ++ bytes') := by
  intro hlt
  rw [List.length_append] at hlt ⊢
  rw [BitVec.ofNat_add,h (by omega),h' (by omega)]

/-- A singular field. -/
theorem IntSize.elim {α : Type} {bytes : α → List UInt8} {size : α → BitVec 32} (h : ∀ v, IntSize (size v) (bytes v)) (a : Option α) :
    IntSize (a.elim 0 size) (a.elim [] bytes) := by
  cases a with
  | none => exact fun _ => rfl
  | some v => exact h v

/-- A repeated field with a byte for each tag. -/
theorem IntSize.flatMap {α : Type} {bytes : α → List UInt8} {size : α → BitVec 32} (h : ∀ v, IntSize (1 + size v) (bytes v)) (l : List α) :
    IntSize (1 * .ofNat 32 l.length + (l.map size).sum) (l.flatMap bytes) := by
  induction l with
  | nil => exact fun _ => rfl
  | cons v l ih =>
    have hboth := (h v).append ih
    have hsum : 1 * BitVec.ofNat 32 (v :: l).length + ((v :: l).map size).sum =
        1 + size v + (1 * BitVec.ofNat 32 l.length + (l.map size).sum) := by
      rw [List.length_cons,List.map_cons,List.sum_cons,BitVec.ofNat_add]
      grind
    rw [hsum]
    exact hboth

end Sizes

/-- The documented behaviour. ExpectTag and ExpectAtEnd may fail to see what is there. -/
structure CodedStream.Documented {F : Type} (w : CodedStream F) : Prop where
  readTag_nil : w.readTag [] = (0,[])
  readTag_writeTag : ∀ tag rest, 0 < tag → tag < 2 ^ 32 → w.readTag (w.writeTag tag ++ rest) = (tag,rest)
  readTag_shorter : ∀ input, (w.readTag input).1 ≠ 0 → (w.readTag input).2.length < input.length
  readTag_small : ∀ input, (w.readTag input).1 < 2 ^ 32
  readVarint64_write : ∀ v rest, w.readVarint64 (w.writeVarint64 v ++ rest) = some (v,rest)
  readVarint64_le : ∀ input v rest, w.readVarint64 input = some (v,rest) → rest.length ≤ input.length
  readString_write : ∀ s rest, s.length < 2 ^ 31 → w.readString (w.writeString s ++ rest) = some (s,rest)
  readString_le : ∀ input s rest, w.readString input = some (s,rest) → s.length < 2 ^ 31 ∧ rest.length ≤ input.length
  skipField_write : ∀ f rest, w.skipField (w.unknownTag f) (w.unknownValue f ++ rest) = some (f,rest)
  skipField_le : ∀ tag input f rest, w.skipField tag input = some (f,rest) → w.unknownTag f = tag ∧ rest.length ≤ input.length
  expectTag_readTag : ∀ tag input rest, w.expectTag tag input = some rest → w.readTag input = (tag,rest)
  expectAtEnd_nil : ∀ input, w.expectAtEnd input = true → input = []
  writeTag_length : ∀ tag, 0 < tag → tag < 128 → (w.writeTag tag).length = 1
  int32Size_eq : ∀ v, IntSize (w.int32Size v) (w.writeVarint64 (v.signExtend 64))
  int64Size_eq : ∀ v, IntSize (w.int64Size v) (w.writeVarint64 v)
  stringSize_eq : ∀ s, IntSize (w.stringSize s) (w.writeString s)
  unknownFieldsSize_eq : ∀ fs, IntSize (w.unknownFieldsSize fs) (w.serializeUnknownFields fs)

section Readers
variable {F M : Type} (w : CodedStream F)

/-- ReadPrimitive and ReadString, and what they set. -/
def CodedStream.readInt64 (set : BitVec 64 → M) (input : List UInt8) : Option (M × List UInt8) :=
  (w.readVarint64 input).map fun p => (set p.1,p.2)

def CodedStream.readInt32 (set : BitVec 32 → M) (input : List UInt8) : Option (M × List UInt8) :=
  (w.readVarint64 input).map fun p => (set (p.1.setWidth 32),p.2)

def CodedStream.readStringTo (set : List UInt8 → M) (input : List UInt8) : Option (M × List UInt8) :=
  (w.readString input).map fun p => (set p.1,p.2)

variable {w} {input rest : List UInt8} {m : M}

theorem CodedStream.readInt64_write (hw : w.Documented) (set : BitVec 64 → M) (v : BitVec 64) (rest : List UInt8) :
    w.readInt64 set (w.writeVarint64 v ++ rest) = some (set v,rest) := by
  rw [readInt64,hw.readVarint64_write]
  rfl

/-- The low half of a value is the value. -/
private theorem setWidth_signExtend (v : BitVec 32) : (v.signExtend 64).setWidth 32 = v := by
  ext i hi
  have hlt : i < 64 := by omega
  rw [BitVec.getElem_setWidth,BitVec.getLsbD_signExtend,if_pos hi,decide_eq_true hlt,Bool.true_and,BitVec.getLsbD_eq_getElem hi]

theorem CodedStream.readInt32_write (hw : w.Documented) (set : BitVec 32 → M) (v : BitVec 32) (rest : List UInt8) :
    w.readInt32 set (w.writeVarint64 (v.signExtend 64) ++ rest) = some (set v,rest) := by
  rw [readInt32,hw.readVarint64_write,Option.map_some,setWidth_signExtend]

theorem CodedStream.readStringTo_write (hw : w.Documented) (set : List UInt8 → M) {s : List UInt8} (hs : s.length < 2 ^ 31)
    (rest : List UInt8) : w.readStringTo set (w.writeString s ++ rest) = some (set s,rest) := by
  rw [readStringTo,hw.readString_write s rest hs]
  rfl

theorem CodedStream.readInt64_cases (hw : w.Documented) {set : BitVec 64 → M} (h : w.readInt64 set input = some (m,rest)) :
    (∃ v, m = set v) ∧ rest.length ≤ input.length := by
  obtain ⟨⟨v,rest'⟩,hread,heq⟩ := Option.map_eq_some_iff.mp h
  cases heq
  exact ⟨⟨v,rfl⟩,hw.readVarint64_le _ _ _ hread⟩

theorem CodedStream.readInt32_cases (hw : w.Documented) {set : BitVec 32 → M} (h : w.readInt32 set input = some (m,rest)) :
    (∃ v, m = set v) ∧ rest.length ≤ input.length := by
  obtain ⟨⟨v,rest'⟩,hread,heq⟩ := Option.map_eq_some_iff.mp h
  cases heq
  exact ⟨⟨_,rfl⟩,hw.readVarint64_le _ _ _ hread⟩

theorem CodedStream.readStringTo_cases (hw : w.Documented) {set : List UInt8 → M} (h : w.readStringTo set input = some (m,rest)) :
    (∃ s, s.length < 2 ^ 31 ∧ m = set s) ∧ rest.length ≤ input.length := by
  obtain ⟨⟨s,rest'⟩,hread,heq⟩ := Option.map_eq_some_iff.mp h
  cases heq
  obtain ⟨hs,hle⟩ := hw.readString_le _ _ _ hread
  exact ⟨⟨s,hs,rfl⟩,hle⟩

/-- The tag of a field below 16 is one byte. -/
private theorem writeTag_size (hw : w.Documented) {number wireType : Nat} (h0 : 0 < number) (h : number < 16) (ht : wireType < 8) :
    IntSize 1 (w.writeTag (makeTag number wireType)) := by
  intro _
  rw [hw.writeTag_length _ (by simp only [makeTag]; omega) (by simp only [makeTag]; omega)]
  rfl

theorem CodedStream.size_writeInt64Field (hw : w.Documented) {number : Nat} (h0 : 0 < number) (h : number < 16) (v : BitVec 64) :
    IntSize (1 + w.int64Size v) (w.writeInt64Field number v) :=
  (writeTag_size hw h0 h (by decide)).append (hw.int64Size_eq v)

theorem CodedStream.size_writeInt32Field (hw : w.Documented) {number : Nat} (h0 : 0 < number) (h : number < 16) (v : BitVec 32) :
    IntSize (1 + w.int32Size v) (w.writeInt32Field number v) :=
  (writeTag_size hw h0 h (by decide)).append (hw.int32Size_eq v)

theorem CodedStream.size_writeStringField (hw : w.Documented) {number : Nat} (h0 : 0 < number) (h : number < 16) (s : List UInt8) :
    IntSize (1 + w.stringSize s) (w.writeStringField number s) :=
  (writeTag_size hw h0 h (by decide)).append (hw.stringSize_eq s)

end Readers

/-- A case of the switch: the field, how its value is read into the message, and which
fields are expected behind it. -/
structure FieldCase (M : Type) where
  number : Nat
  wireType : Nat
  read : M → List UInt8 → Option (M × List UInt8)
  /-- The numbers of the fields whose tags are expected, in order. -/
  expected : List Nat
  /-- The end is expected behind them. -/
  atEnd : Bool

def FieldCase.tag {M : Type} (c : FieldCase M) : Nat := makeTag c.number c.wireType

/-- The cases of a field of type int64, of type int32 and of type string. -/
def FieldCase.int64 {F M : Type} (w : CodedStream F) (number : Nat) (set : M → BitVec 64 → M) (expected : List Nat) (atEnd : Bool) :
    FieldCase M :=
  ⟨number,wireTypeVarint,fun m => w.readInt64 (set m),expected,atEnd⟩

def FieldCase.int32 {F M : Type} (w : CodedStream F) (number : Nat) (set : M → BitVec 32 → M) (expected : List Nat) (atEnd : Bool) :
    FieldCase M :=
  ⟨number,wireTypeVarint,fun m => w.readInt32 (set m),expected,atEnd⟩

def FieldCase.string {F M : Type} (w : CodedStream F) (number : Nat) (set : M → List UInt8 → M) (expected : List Nat) (atEnd : Bool) :
    FieldCase M :=
  ⟨number,wireTypeLengthDelimited,fun m => w.readStringTo (set m),expected,atEnd⟩

/-- A generated class, for its parser. -/
structure MessageClass (F M : Type) where
  cases : List (FieldCase M)
  addUnknown : M → F → M

section Parser
variable {F M : Type} (w : CodedStream F) (cls : MessageClass F M)

/-- The case that a number is switched to. -/
def MessageClass.caseOf (number : Nat) : Option (FieldCase M) := cls.cases.find? fun c => c.number = number

/-- The case for a tag: that of its number, if the wire type is the field's. -/
def MessageClass.dispatch (tag : Nat) : Option (FieldCase M) :=
  (cls.caseOf (tagFieldNumber tag)).filter fun c => tagWireType tag = c.wireType

/-- The first of the expected tags that is seen, and its case. -/
def MessageClass.jump (input : List UInt8) : List Nat → Option (FieldCase M × List UInt8)
  | [] => none
  | number :: expected =>
    match cls.caseOf number with
    | none => jump input expected
    | some c =>
      match w.expectTag c.tag input with
      | some rest => some (c,rest)
      | none => jump input expected

/-- MergePartialFromCodedStream, at the top of its loop or at the label of a field. The
message if true is returned, and whether the input was consumed to its end. -/
def MessageClass.mergePartial : Nat → Option (FieldCase M) → M → List UInt8 → Except Halt (Option (M × Bool))
  | 0, _, _, _ => .error .outOfFuel
  | fuel+1, none, m, input =>
    let (tag,rest) := w.readTag input
    if tag = 0 then .ok (some (m,input.isEmpty))
    else
      match cls.dispatch tag with
      | some c => mergePartial fuel (some c) m rest
      | none =>
        if tagWireType tag = wireTypeEndGroup then .ok (some (m,false))
        else
          match w.skipField tag rest with
          | some (f,rest) => mergePartial fuel none (cls.addUnknown m f) rest
          | none => .ok none
  | fuel+1, some c, m, input =>
    match c.read m input with
    | none => .ok none
    | some (m,input) =>
      match cls.jump w input c.expected with
      | some (c,rest) => mergePartial fuel (some c) m rest
      | none =>
        if c.atEnd = true ∧ w.expectAtEnd input = true then .ok (some (m,true))
        else mergePartial fuel none m input

/-- From the top of the loop. A tag and a value in a round of two steps. -/
def MessageClass.mergePartialFromCodedStream (m : M) (input : List UInt8) : Except Halt (Option (M × Bool)) :=
  cls.mergePartial w (2 * input.length + 1) none m input

/-- The plain loop: read a tag, and then the value of its field. -/
def MessageClass.plain : Nat → M → List UInt8 → Option (M × Bool)
  | 0, _, _ => none
  | rounds+1, m, input =>
    let (tag,rest) := w.readTag input
    if tag = 0 then some (m,input.isEmpty)
    else
      match cls.dispatch tag with
      | some c =>
        match c.read m rest with
        | some (m,rest) => plain rounds m rest
        | none => none
      | none =>
        if tagWireType tag = wireTypeEndGroup then some (m,false)
        else
          match w.skipField tag rest with
          | some (f,rest) => plain rounds (cls.addUnknown m f) rest
          | none => none

/-- Every round of the plain loop takes at least a byte. -/
def MessageClass.merge (m : M) (input : List UInt8) : Option (M × Bool) := cls.plain w (input.length + 1) m input

/-- Reading a field takes no byte back, and the labels are those of the fields' tags. -/
structure MessageClass.Regular : Prop where
  read_le : ∀ c ∈ cls.cases, ∀ m input m' rest, c.read m input = some (m',rest) → rest.length ≤ input.length
  dispatch_tag : ∀ number c, cls.caseOf number = some c → cls.dispatch c.tag = some c
  tag_pos : ∀ c ∈ cls.cases, c.tag ≠ 0

end Parser

section Equivalence
variable {F M : Type} {w : CodedStream F} {cls : MessageClass F M} {m : M} {input : List UInt8}

/-- The small numbers, of which the tags take one byte, and the types of fields. -/
inductive FieldCase.Typed (w : CodedStream F) : FieldCase M → Prop where
  | int64 (number : Nat) (h0 : 0 < number) (h : number < 16) (set : M → BitVec 64 → M) (expected : List Nat) (atEnd : Bool) :
      Typed w (.int64 w number set expected atEnd)
  | int32 (number : Nat) (h0 : 0 < number) (h : number < 16) (set : M → BitVec 32 → M) (expected : List Nat) (atEnd : Bool) :
      Typed w (.int32 w number set expected atEnd)
  | string (number : Nat) (h0 : 0 < number) (h : number < 16) (set : M → List UInt8 → M) (expected : List Nat) (atEnd : Bool) :
      Typed w (.string w number set expected atEnd)

theorem FieldCase.Typed.spec (hw : w.Documented) {c : FieldCase M} (h : c.Typed w) : 0 < c.number ∧ c.number < 16 ∧ c.wireType < 8 ∧
    ∀ m input m' rest, c.read m input = some (m',rest) → rest.length ≤ input.length := by
  cases h with
  | int64 number h0 h => exact ⟨h0,h,by change 0 < 8; decide,fun _ _ _ _ hread => (CodedStream.readInt64_cases hw hread).2⟩
  | int32 number h0 h => exact ⟨h0,h,by change 0 < 8; decide,fun _ _ _ _ hread => (CodedStream.readInt32_cases hw hread).2⟩
  | string number h0 h => exact ⟨h0,h,by change 2 < 8; decide,fun _ _ _ _ hread => (CodedStream.readStringTo_cases hw hread).2⟩

section Reads
variable {number : Nat} {expected : List Nat} {atEnd : Bool} {m m' : M} {input rest : List UInt8} (hw : w.Documented)
include hw

theorem FieldCase.read_int64 {set : M → BitVec 64 → M} (h : (FieldCase.int64 w number set expected atEnd).read m input = some (m',rest)) :
    ∃ v, m' = set m v := (@CodedStream.readInt64_cases F M w _ _ _ hw (set m) h).1

theorem FieldCase.read_int32 {set : M → BitVec 32 → M} (h : (FieldCase.int32 w number set expected atEnd).read m input = some (m',rest)) :
    ∃ v, m' = set m v := (@CodedStream.readInt32_cases F M w _ _ _ hw (set m) h).1

theorem FieldCase.read_string {set : M → List UInt8 → M} (h : (FieldCase.string w number set expected atEnd).read m input = some (m',rest)) :
    ∃ s, s.length < 2 ^ 31 ∧ m' = set m s := (@CodedStream.readStringTo_cases F M w _ _ _ hw (set m) h).1

end Reads

theorem MessageClass.regular_of_typed (hw : w.Documented) (htyped : ∀ c ∈ cls.cases, c.Typed w) : cls.Regular := by
  refine ⟨fun c hc => ((htyped c hc).spec hw).2.2.2,fun number c hcase => ?_,fun c hc htag => ?_⟩
  · have hc := List.mem_of_find?_eq_some hcase
    obtain ⟨hpos,-,hwire,-⟩ := (htyped c hc).spec hw
    obtain rfl : c.number = number := by simpa using List.find?_some hcase
    have hnumber : tagFieldNumber c.tag = c.number := by
      simp only [tagFieldNumber,FieldCase.tag,makeTag]
      omega
    have htype : tagWireType c.tag = c.wireType := by
      simp only [tagWireType,FieldCase.tag,makeTag]
      omega
    rw [dispatch,hnumber,hcase,Option.filter_some,htype,decide_eq_true rfl,if_pos rfl]
  · obtain ⟨hpos,-⟩ := (htyped c hc).spec hw
    simp only [FieldCase.tag,makeTag] at htag
    omega

theorem MessageClass.mem_of_dispatch {tag : Nat} {c : FieldCase M} (h : cls.dispatch tag = some c) : c ∈ cls.cases := by
  simp only [dispatch,caseOf,Option.filter_eq_some_iff] at h
  exact List.mem_of_find?_eq_some h.1

/-- More rounds than bytes change nothing. -/
private theorem MessageClass.plain_stable (hw : w.Documented) (hcls : cls.Regular) {n rounds rounds' : Nat} (hn : input.length < n)
    (hr : input.length < rounds) (hr' : input.length < rounds') : cls.plain w rounds m input = cls.plain w rounds' m input := by
  induction n generalizing rounds rounds' m input with
  | zero => exact absurd hn (Nat.not_lt_zero _)
  | succ n ih =>
    obtain ⟨k,rfl⟩ := Nat.exists_eq_succ_of_ne_zero (Nat.ne_zero_of_lt hr)
    obtain ⟨k',rfl⟩ := Nat.exists_eq_succ_of_ne_zero (Nat.ne_zero_of_lt hr')
    rw [plain,plain]
    have hshorter := hw.readTag_shorter input
    generalize w.readTag input = r at hshorter
    obtain ⟨tag,rest⟩ := r
    simp only at hshorter ⊢
    split
    · rfl
    · rename_i htag
      have hrest := hshorter htag
      split
      · rename_i c hc
        split
        · rename_i m' rest' hread
          have hle := hcls.read_le c (mem_of_dispatch hc) _ _ _ _ hread
          exact ih (by omega) (by omega) (by omega)
        · rfl
      · split
        · rfl
        · split
          · rename_i f rest' hskip
            have hle := (hw.skipField_le _ _ _ _ hskip).2
            exact ih (by omega) (by omega) (by omega)
          · rfl

theorem MessageClass.plain_eq_merge (hw : w.Documented) (hcls : cls.Regular) {rounds : Nat} (h : input.length < rounds) :
    cls.plain w rounds m input = cls.merge w m input := plain_stable hw hcls (Nat.lt_succ_self _) h (Nat.lt_succ_self _)

/-- One round. -/
theorem MessageClass.merge_round (hw : w.Documented) (hcls : cls.Regular) (m : M) (input : List UInt8) : cls.merge w m input =
    if (w.readTag input).1 = 0 then some (m,input.isEmpty)
    else
      match cls.dispatch (w.readTag input).1 with
      | some c =>
        match c.read m (w.readTag input).2 with
        | some (m,rest) => cls.merge w m rest
        | none => none
      | none =>
        if tagWireType (w.readTag input).1 = wireTypeEndGroup then some (m,false)
        else
          match w.skipField (w.readTag input).1 (w.readTag input).2 with
          | some (f,rest) => cls.merge w (cls.addUnknown m f) rest
          | none => none := by
  rw [merge,plain]
  have hshorter := hw.readTag_shorter input
  generalize w.readTag input = r at hshorter
  obtain ⟨tag,rest⟩ := r
  simp only at hshorter ⊢
  split
  · rfl
  · rename_i htag
    have hrest := hshorter htag
    split
    · rename_i c hc
      split
      · rename_i m' rest' hread
        have hle := hcls.read_le c (mem_of_dispatch hc) _ _ _ _ hread
        exact plain_eq_merge hw hcls (by omega)
      · rfl
    · split
      · rfl
      · split
        · rename_i f rest' hskip
          have hle := (hw.skipField_le _ _ _ _ hskip).2
          exact plain_eq_merge hw hcls (by omega)
        · rfl

theorem MessageClass.jump_some (hw : w.Documented) {expected : List Nat} {c : FieldCase M} {rest : List UInt8}
    (h : cls.jump w input expected = some (c,rest)) : (∃ number, cls.caseOf number = some c) ∧ w.readTag input = (c.tag,rest) := by
  induction expected with
  | nil => cases h
  | cons number expected ih =>
    rw [jump] at h
    split at h
    · exact ih h
    · rename_i c' hc
      split at h
      · rename_i rest' hexpect
        cases h
        exact ⟨⟨number,hc⟩,hw.expectTag_readTag _ _ _ hexpect⟩
      · exact ih h

/-- What the loop does from the label of a field on. -/
def MessageClass.mergeFrom (w : CodedStream F) (cls : MessageClass F M) (c : FieldCase M) (m : M) (input : List UInt8) : Option (M × Bool) :=
  (c.read m input).bind fun (m,rest) => cls.merge w m rest

/-- The jumps and the look for the end are those the loop would come to. -/
private theorem MessageClass.mergePartial_ok (hw : w.Documented) (hcls : cls.Regular) (fuel : Nat) (m : M) (input : List UInt8) :
    (2 * input.length < fuel → cls.mergePartial w fuel none m input = .ok (cls.merge w m input)) ∧
      ∀ c ∈ cls.cases, 2 * input.length + 1 < fuel → cls.mergePartial w fuel (some c) m input = .ok (cls.mergeFrom w c m input) := by
  induction fuel generalizing m input with
  | zero => exact ⟨fun h => absurd h (Nat.not_lt_zero _),fun _ _ h => absurd h (Nat.not_lt_zero _)⟩
  | succ fuel ih =>
    refine ⟨fun hfuel => ?_,fun c hc hfuel => ?_⟩
    · rw [mergePartial,merge_round hw hcls]
      have hshorter := hw.readTag_shorter input
      generalize w.readTag input = r at hshorter
      obtain ⟨tag,rest⟩ := r
      simp only at hshorter ⊢
      split
      · rfl
      · rename_i htag
        have hrest := hshorter htag
        split
        · rename_i c hc
          rw [(ih m rest).2 c (mem_of_dispatch hc) (by omega),mergeFrom]
          cases c.read m rest with
          | none => rfl
          | some p => rfl
        · split
          · rfl
          · split
            · rename_i f rest' hskip
              have hle := (hw.skipField_le _ _ _ _ hskip).2
              exact (ih _ _).1 (by omega)
            · rfl
    · rw [mergePartial,mergeFrom]
      cases hread : c.read m input with
      | none => rfl
      | some p =>
        obtain ⟨m',rest⟩ := p
        have hle := hcls.read_le c hc _ _ _ _ hread
        simp only [Option.bind_some]
        split
        · rename_i c' rest' hjump
          obtain ⟨⟨number,hcase⟩,htag⟩ := jump_some hw hjump
          have hmem : c' ∈ cls.cases := List.mem_of_find?_eq_some hcase
          have hnonzero := hcls.tag_pos c' hmem
          have hrest := hw.readTag_shorter rest (by rwa [htag])
          rw [htag] at hrest
          rw [(ih m' rest').2 c' hmem (by simp only at hrest; omega),merge_round hw hcls m' rest,htag]
          simp only [if_neg hnonzero,hcls.dispatch_tag number c' hcase]
          rw [mergeFrom]
          cases c'.read m' rest' with
          | none => rfl
          | some p => rfl
        · split
          · rename_i hend
            obtain rfl := hw.expectAtEnd_nil _ hend.2
            rw [merge_round hw hcls,hw.readTag_nil]
            rfl
          · exact (ih m' rest).1 (by omega)

theorem MessageClass.mergePartial_eq_merge (hw : w.Documented) (hcls : cls.Regular) (m : M) (input : List UInt8) :
    cls.mergePartialFromCodedStream w m input = .ok (cls.merge w m input) :=
  (mergePartial_ok hw hcls _ m input).1 (Nat.lt_succ_self _)

end Equivalence

/-! What the parser makes of what the writers wrote. -/
section Leads
variable {F M : Type} {w : CodedStream F} {cls : MessageClass F M} {m m' m'' : M}

/-- The bytes turn the one message into the other, whatever comes behind them. -/
def MessageClass.Leads (w : CodedStream F) (cls : MessageClass F M) (m : M) (bytes : List UInt8) (m' : M) : Prop :=
  ∀ rest, cls.merge w m (bytes ++ rest) = cls.merge w m' rest

theorem MessageClass.Leads.refl : cls.Leads w m [] m := fun _ => rfl

theorem MessageClass.Leads.trans {bytes bytes' : List UInt8} (h : cls.Leads w m bytes m') (h' : cls.Leads w m' bytes' m'') :
    cls.Leads w m (bytes ++ bytes') m'' := by
  intro rest
  rw [List.append_assoc,h,h']

/-- A singular field, if it is set. -/
theorem MessageClass.Leads.option {α : Type} {bytes : α → List UInt8} {a : Option α} {build : Option α → M}
    (h : ∀ v, a = some v → cls.Leads w (build none) (bytes v) (build (some v))) :
    cls.Leads w (build none) (a.elim [] bytes) (build a) := by
  cases a with
  | none => exact .refl
  | some v => exact h v rfl

/-- A repeated field, one value after the other. -/
theorem MessageClass.Leads.repeated {α : Type} {bytes : α → List UInt8} {as : List α} {build : List α → M}
    (h : ∀ a ∈ as, ∀ l, cls.Leads w (build l) (bytes a) (build (l ++ [a]))) (l : List α) :
    cls.Leads w (build l) (as.flatMap bytes) (build (l ++ as)) := by
  induction as generalizing l with
  | nil =>
    rw [List.append_nil]
    exact .refl
  | cons a as ih =>
    have hrest := ih (fun b hb => h b (List.mem_cons_of_mem _ hb)) (l ++ [a])
    rw [List.append_assoc,List.singleton_append] at hrest
    exact (h a List.mem_cons_self l).trans hrest

/-- A field that the class has. -/
private theorem MessageClass.leads_field (hw : w.Documented) (hcls : cls.Regular) {c : FieldCase M} (hcase : cls.caseOf c.number = some c)
    (hsmall : c.tag < 2 ^ 32) {value : List UInt8} (hread : ∀ rest, c.read m (value ++ rest) = some (m',rest)) :
    cls.Leads w m (w.writeTag c.tag ++ value) m' := by
  intro rest
  have htag := hcls.tag_pos c (List.mem_of_find?_eq_some hcase)
  rw [merge_round hw hcls,List.append_assoc,hw.readTag_writeTag _ _ (Nat.pos_of_ne_zero htag) hsmall]
  simp only [if_neg htag,hcls.dispatch_tag _ c hcase,hread]

section Fields
variable {number : Nat} {expected : List Nat} {atEnd : Bool} (hw : w.Documented) (hcls : cls.Regular) (h : number < 16)
include hw hcls h

theorem MessageClass.leads_int64 {set : M → BitVec 64 → M} (hcase : cls.caseOf number = some (.int64 w number set expected atEnd))
    (m : M) (v : BitVec 64) : cls.Leads w m (w.writeInt64Field number v) (set m v) := by
  have hsmall : (FieldCase.int64 w number set expected atEnd).tag < 2 ^ 32 := by
    simp only [FieldCase.tag,FieldCase.int64,makeTag,wireTypeVarint]
    omega
  exact leads_field (c := .int64 w number set expected atEnd) hw hcls hcase hsmall (CodedStream.readInt64_write hw (set m) v)

theorem MessageClass.leads_int32 {set : M → BitVec 32 → M} (hcase : cls.caseOf number = some (.int32 w number set expected atEnd))
    (m : M) (v : BitVec 32) : cls.Leads w m (w.writeInt32Field number v) (set m v) := by
  have hsmall : (FieldCase.int32 w number set expected atEnd).tag < 2 ^ 32 := by
    simp only [FieldCase.tag,FieldCase.int32,makeTag,wireTypeVarint]
    omega
  exact leads_field (c := .int32 w number set expected atEnd) hw hcls hcase hsmall (CodedStream.readInt32_write hw (set m) v)

theorem MessageClass.leads_string {set : M → List UInt8 → M} (hcase : cls.caseOf number = some (.string w number set expected atEnd))
    (m : M) {s : List UInt8} (hs : s.length < 2 ^ 31) : cls.Leads w m (w.writeStringField number s) (set m s) := by
  have hsmall : (FieldCase.string w number set expected atEnd).tag < 2 ^ 32 := by
    simp only [FieldCase.tag,FieldCase.string,makeTag,wireTypeLengthDelimited]
    omega
  exact leads_field (c := .string w number set expected atEnd) hw hcls hcase hsmall (CodedStream.readStringTo_write hw (set m) hs)

end Fields

/-- No case reads it, and it does not end the message. -/
structure MessageClass.Foreign (w : CodedStream F) (cls : MessageClass F M) (f : F) : Prop where
  dispatch : cls.dispatch (w.unknownTag f) = none
  notEnd : tagWireType (w.unknownTag f) ≠ wireTypeEndGroup
  pos : 0 < w.unknownTag f
  small : w.unknownTag f < 2 ^ 32

theorem MessageClass.leads_unknown (hw : w.Documented) (hcls : cls.Regular) {f : F} (hf : cls.Foreign w f) (m : M) :
    cls.Leads w m (w.serializeUnknownField f) (cls.addUnknown m f) := by
  intro rest
  rw [merge_round hw hcls,CodedStream.serializeUnknownField,List.append_assoc,hw.readTag_writeTag _ _ hf.pos hf.small]
  simp only [if_neg hf.pos.ne',hf.dispatch,if_neg hf.notEnd,hw.skipField_write]

theorem MessageClass.merge_nil (hw : w.Documented) (hcls : cls.Regular) (m : M) : cls.merge w m [] = some (m,true) := by
  rw [merge_round hw hcls,hw.readTag_nil]
  rfl

theorem MessageClass.Leads.merge_eq (hw : w.Documented) (hcls : cls.Regular) {bytes : List UInt8} (h : cls.Leads w m bytes m') :
    cls.merge w m bytes = some (m',true) := by
  have hall := h []
  rwa [List.append_nil,merge_nil hw hcls] at hall

/-- What reading a field and keeping a foreign one preserve holds of the message at the end. -/
theorem MessageClass.merge_invariant (hw : w.Documented) (hcls : cls.Regular) {P : M → Prop}
    (read : ∀ c ∈ cls.cases, ∀ m input m' rest, P m → c.read m input = some (m',rest) → P m')
    (unknown : ∀ m f, P m → cls.Foreign w f → P (cls.addUnknown m f)) {input : List UInt8} {consumed : Bool} (hm : P m)
    (h : cls.merge w m input = some (m',consumed)) : P m' := by
  induction hn : input.length using Nat.strong_induction_on generalizing m input with
  | _ n ih =>
    rw [merge_round hw hcls] at h
    have hshorter := hw.readTag_shorter input
    have hsmall := hw.readTag_small input
    generalize w.readTag input = r at h hshorter hsmall
    obtain ⟨tag,rest⟩ := r
    simp only at h hshorter hsmall
    split at h
    · cases h
      exact hm
    · rename_i htag
      have hrest := hshorter htag
      split at h
      · rename_i c hc
        split at h
        · rename_i m₁ rest₁ hread
          have hle := hcls.read_le c (mem_of_dispatch hc) _ _ _ _ hread
          exact ih _ (by omega) (read c (mem_of_dispatch hc) _ _ _ _ hm hread) h rfl
        · cases h
      · rename_i hnone
        split at h
        · cases h
          exact hm
        · rename_i hend
          split at h
          · rename_i f rest₁ hskip
            obtain ⟨hf,hle⟩ := hw.skipField_le _ _ _ _ hskip
            refine ih _ (by omega) (unknown _ f hm ?_) h rfl
            exact ⟨by rw [hf]; exact hnone,by rw [hf]; exact hend,by omega,by omega⟩
          · cases h

end Leads
end LinuxServer.Protobuf
