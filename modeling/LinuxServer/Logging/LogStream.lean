import LinuxServer.Lib.Machine
import LinuxServer.Lib.Numerals

/-! The log stream's integers: digits by repeated truncating division, looked up
in a table mirrored around its zero, then reversed in place. -/
namespace LinuxServer.Logging.LogStream
open LinuxServer.Lib

def maxNumericSize : Nat := 32

/-- The integer types the stream accepts, on a host with 64-bit longs. -/
inductive IntegerType where
  | short
  | unsignedShort
  | int
  | unsignedInt
  | long
  | unsignedLong
  | longLong
  | unsignedLongLong
  deriving DecidableEq

namespace IntegerType

def width : IntegerType → Nat
  | .short | .unsignedShort => 16
  | .int | .unsignedInt => 32
  | .long | .unsignedLong | .longLong | .unsignedLongLong => 64

def signed : IntegerType → Bool
  | .short | .int | .long | .longLong => true
  | .unsignedShort | .unsignedInt | .unsignedLong | .unsignedLongLong => false

/-- The number a value of the type stands for. -/
def val (t : IntegerType) (v : BitVec t.width) : Int := if t.signed then v.toInt else v.toNat

/-- The type's remainder, as the int it is assigned to. -/
def rem (t : IntegerType) (v : BitVec t.width) (m : Nat) : Int :=
  if t.signed then (v.srem (.ofNat _ m)).toInt else (v % .ofNat _ m).toNat

def div (t : IntegerType) (v : BitVec t.width) (m : Nat) : BitVec t.width :=
  if t.signed then v.sdiv (.ofNat _ m) else v / .ofNat _ m

end IntegerType

/-! The tables, with their terminators. -/

def digits : List Char := "9876543210123456789".toList ++ [Char.ofNat 0]
def digitsHex : List Char := "0123456789abcdef".toList ++ [Char.ofNat 0]

/-- Read a table at an index, which must lie inside it. -/
def tableAt (table : List Char) (i : Int) : Except Halt Char := do
  ensure .outOfBounds (0 ≤ i ∧ i < table.length)
  .ok (table.getD i.toNat (Char.ofNat 0))

/-- The pointer into the middle of the table, indexed from both sides. -/
def zero (nIndex : Int) : Except Halt Char := tableAt digits (9 + nIndex)

/-! Memory from the write pointer to the end of the buffer is a list of characters. -/

/-- Store one character at the write pointer and advance it. -/
def put : List Char → Except Halt (List Char)
  | [] => .error .outOfBounds
  | _ :: rest => .ok rest

/-- The do-while loop of both conversions: what it stored, and the memory behind it. -/
def emit (t : IntegerType) (base : Nat) (digit : Int → Except Halt Char) (i : BitVec t.width) :
    List Char → Except Halt (List Char × List Char)
  | [] => .error .outOfBounds
  | _ :: rest => do
    let c ← digit (t.rem i base)
    let i' := t.div i base
    if i' = 0 then .ok ([c],rest) else do
      let (cs,rest) ← emit t base digit i' rest
      .ok (c :: cs,rest)

/-- The buffer after the conversion, and the returned length. -/
def convert (t : IntegerType) (buf : List Char) (value : BitVec t.width) : Except Halt (List Char × Nat) := do
  let (cs,rest) ← emit t 10 zero value buf
  if t.val value < 0 then do
    let rest ← put rest
    let rest ← put rest
    .ok ((cs ++ ['-']).reverse ++ Char.ofNat 0 :: rest,(cs ++ ['-']).length)
  else do
    let rest ← put rest
    .ok (cs.reverse ++ Char.ofNat 0 :: rest,cs.length)

/-- An uintptr_t is an unsigned long. -/
def convertHex (buf : List Char) (value : BitVec 64) : Except Halt (List Char × Nat) := do
  let (cs,rest) ← emit .unsignedLong 16 (tableAt digitsHex) value buf
  let rest ← put rest
  .ok (cs.reverse ++ Char.ofNat 0 :: rest,cs.length)

structure FixedBuffer where
  data : List Char
  cur : Nat
  deriving DecidableEq

namespace FixedBuffer

def getAvail (b : FixedBuffer) : Int := b.data.length - b.cur
def asString (b : FixedBuffer) : List Char := b.data.take b.cur

def formatInteger (b : FixedBuffer) (t : IntegerType) (v : BitVec t.width) : Except Halt FixedBuffer :=
  if maxNumericSize < b.getAvail then do
    let (written,unLength) ← convert t (b.data.drop b.cur) v
    .ok ⟨b.data.take b.cur ++ written,b.cur + unLength⟩
  else .ok b

/-- The inserters of the integer types; the two shortest go through a cast. -/
def insert (b : FixedBuffer) : (t : IntegerType) → BitVec t.width → Except Halt FixedBuffer
  | .short, v => b.formatInteger .int (v.signExtend 32)
  | .unsignedShort, v => b.formatInteger .unsignedInt (v.setWidth 32)
  | .int, v => b.formatInteger .int v
  | .unsignedInt, v => b.formatInteger .unsignedInt v
  | .long, v => b.formatInteger .long v
  | .unsignedLong, v => b.formatInteger .unsignedLong v
  | .longLong, v => b.formatInteger .longLong v
  | .unsignedLongLong, v => b.formatInteger .unsignedLongLong v

def insertPointer (b : FixedBuffer) (v : BitVec 64) : Except Halt FixedBuffer :=
  if maxNumericSize ≤ b.getAvail then do
    let buf₁ ← put (b.data.drop b.cur)
    let buf₂ ← put buf₁
    let (written,len) ← convertHex buf₂ v
    .ok ⟨b.data.take b.cur ++ ['0','x'] ++ written,b.cur + (len + 2)⟩
  else .ok b

end FixedBuffer

/-! The arithmetic of the types on their numbers. -/

namespace IntegerType

theorem toInt_ofNat {w m : Nat} (h : 2 * m < 2 ^ w) : (BitVec.ofNat w m).toInt = m := by
  have hm : m < 2 ^ w := by omega
  rw [BitVec.toInt_eq_toNat_of_lt (by rw [BitVec.toNat_ofNat,Nat.mod_eq_of_lt hm]; exact h),
    BitVec.toNat_ofNat,Nat.mod_eq_of_lt hm]

theorem two_pow_le (t : IntegerType) : 2 ^ 16 ≤ 2 ^ t.width := by
  apply Nat.pow_le_pow_right (by decide)
  cases t <;> decide

theorem natAbs_val_lt (t : IntegerType) (v : BitVec t.width) : (t.val v).natAbs < 2 ^ 64 := by
  have hw : 2 ^ t.width ≤ 2 ^ 64 := Nat.pow_le_pow_right (by decide) (by cases t <;> decide)
  have hlt := v.isLt
  rw [val]
  split
  · have h := BitVec.toInt_eq_toNat_cond v
    split at h <;> omega
  · omega

theorem val_eq_zero_iff (t : IntegerType) (v : BitVec t.width) : t.val v = 0 ↔ v = 0 := by
  change t.val v = 0 ↔ v = 0#t.width
  rw [val]
  split
  · rw [← BitVec.toInt_inj,BitVec.toInt_zero]
  · rw [← BitVec.toNat_inj,BitVec.toNat_zero,Int.natCast_eq_zero]

variable (t : IntegerType) (v : BitVec t.width) {m : Nat}

/-- The remainder keeps the sign of the dividend. -/
theorem rem_eq (hm : m < 2 ^ 15) : t.rem v m = (t.val v).tmod m := by
  have hw := t.two_pow_le
  rw [rem,val]
  split
  · rw [BitVec.toInt_srem,toInt_ofNat (by omega)]
  · rw [BitVec.toNat_umod,BitVec.toNat_ofNat,Nat.mod_eq_of_lt (show m < 2 ^ t.width by omega)]
    rfl

/-- The quotient is truncated towards zero, also of the least value of a signed type. -/
theorem val_div (hm : m < 2 ^ 15) : t.val (t.div v m) = (t.val v).tdiv m := by
  have hw := t.two_pow_le
  rw [div,val,val]
  split
  · have hne : BitVec.ofNat t.width m ≠ -1#t.width := by
      intro h
      have hval := congrArg BitVec.toInt h
      have hpos : 0 < t.width := by cases t <;> decide
      rw [toInt_ofNat (by omega),BitVec.neg_one_eq_allOnes,BitVec.toInt_allOnes,if_pos hpos] at hval
      omega
    rw [BitVec.toInt_sdiv_of_ne_or_ne _ _ (.inr hne),toInt_ofNat (by omega)]
  · rw [BitVec.toNat_udiv,BitVec.toNat_ofNat,Nat.mod_eq_of_lt (show m < 2 ^ t.width by omega)]
    rfl

end IntegerType

/-! The digits. -/

/-- From its middle the table reads the digit of the magnitude on both sides. -/
theorem zero_ok {k : Int} (h : k.natAbs < 10) : zero k = .ok (Nat.digitChar k.natAbs) := by
  have all : ∀ k ∈ Finset.Ioo (-10 : Int) 10, zero k = .ok (Nat.digitChar k.natAbs) := by decide
  exact all k (Finset.mem_Ioo.mpr ⟨by omega,by omega⟩)

theorem digitsHex_ok {k : Nat} (h : k < 16) : tableAt digitsHex k = .ok k.digitChar := by
  have all : ∀ k : Nat, k < 16 → tableAt digitsHex k = .ok k.digitChar := by decide
  exact all k h

/-- The loop stores the digits of the magnitude, the least significant first. -/
theorem emit_ok {t : IntegerType} {base : Nat} (hb : 1 < base) (hsmall : base < 2 ^ 15)
    {digit : Int → Except Halt Char}
    (hdigit : ∀ i, digit (t.rem i base) = .ok (Nat.digitChar ((t.val i).natAbs % base)))
    (i : BitVec t.width) {buf : List Char} (hbuf : (base.toDigits (t.val i).natAbs).length ≤ buf.length) :
    emit t base digit i buf = .ok ((base.toDigits (t.val i).natAbs).reverse,
      buf.drop (base.toDigits (t.val i).natAbs).length) := by
  induction buf generalizing i with
  | nil => exact absurd hbuf (not_le.mpr Nat.length_toDigits_pos)
  | cons x rest ih =>
    have hnext : (t.val (t.div i base)).natAbs = (t.val i).natAbs / base := by
      rw [t.val_div i hsmall,Int.natAbs_tdiv,Int.natAbs_natCast]
      rfl
    have hdone : t.div i base = 0 ↔ (t.val i).natAbs < base := by
      rw [← t.val_eq_zero_iff,← Int.natAbs_eq_zero,hnext,Nat.div_eq_zero_iff]
      omega
    simp only [emit,hdigit,ok_bind,hdone]
    by_cases hlt : (t.val i).natAbs < base
    · rw [if_pos hlt,Nat.toDigits_of_lt_base hlt,Nat.mod_eq_of_lt hlt]
      rfl
    · have hrec := Nat.toDigits_eq_if (n := (t.val i).natAbs) hb
      rw [if_neg hlt] at hrec
      rw [hrec,List.length_append,List.length_singleton] at hbuf ⊢
      rw [if_neg hlt,ih (t.div i base) (by rw [hnext]; simpa using hbuf),hnext]
      simp

theorem put_drop {buf : List Char} {n : Nat} (h : n < buf.length) : put (buf.drop n) = .ok (buf.drop (n + 1)) := by
  rw [List.drop_eq_getElem_cons h]
  rfl

/-- The result of a conversion: the numeral and its terminator over the front of
the buffer, and the numeral's length. -/
structure Formats (base : Nat) (v : Int) (buf : List Char) (s : List Char) (r : List Char × Nat) : Prop where
  written : r.1 = s ++ Char.ofNat 0 :: buf.drop (s.length + 1)
  length : r.2 = s.length
  numeral : IsInteger base s v
  back : readInteger base s = some v
  /-- With its terminator, and two characters before it, it fits the room that is asked for. -/
  fits : s.length + 3 ≤ maxNumericSize

theorem formats_integerNumeral {base k : Nat} (hb : 1 < base) (hb16 : base ≤ 16) (hk : 0 < k) (hk28 : k ≤ 28) {v : Int}
    (hv : v.natAbs < base ^ k) (buf : List Char) :
    Formats base v buf (integerNumeral base v) (integerNumeral base v ++ Char.ofNat 0 ::
      buf.drop ((integerNumeral base v).length + 1),(integerNumeral base v).length) := by
  have hnum := isInteger_integerNumeral hb hb16 v
  have hlen := length_integerNumeral_le hb hk hv
  refine ⟨rfl,rfl,hnum,readInteger_of_isInteger hb16 hnum,?_⟩
  rw [maxNumericSize]
  omega

theorem natAbs_val_lt_pow (t : IntegerType) (v : BitVec t.width) : (t.val v).natAbs < 10 ^ 20 :=
  (t.natAbs_val_lt v).trans (by decide)

/-- Every integer is written as its canonical decimal numeral. -/
theorem convert_eq (t : IntegerType) (v : BitVec t.width) {buf : List Char} (hbuf : maxNumericSize ≤ buf.length) :
    convert t buf v = .ok (integerNumeral 10 (t.val v) ++ Char.ofNat 0 ::
      buf.drop ((integerNumeral 10 (t.val v)).length + 1),(integerNumeral 10 (t.val v)).length) := by
  have hf := @formats_integerNumeral 10 20 (by decide) (by decide) (by decide) (by decide) _ (natAbs_val_lt_pow t v) buf
  have hfits := hf.fits
  have hdigit : ∀ i, zero (t.rem i 10) = .ok (Nat.digitChar ((t.val i).natAbs % 10)) := by
    intro i
    have hr : (t.rem i 10).natAbs = (t.val i).natAbs % 10 := by
      rw [t.rem_eq i (by decide),Int.natAbs_tmod]
      rfl
    rw [← hr]
    apply zero_ok
    rw [hr]
    exact Nat.mod_lt _ (by decide)
  unfold integerNumeral at hfits ⊢
  by_cases hneg : t.val v < 0
  · rw [if_pos hneg] at hfits ⊢
    rw [List.length_cons] at hfits
    have hroom : (Nat.toDigits 10 (t.val v).natAbs).length + 1 < buf.length := by omega
    simp only [convert,emit_ok (by decide) (by decide) hdigit v (show _ ≤ buf.length by omega),ok_bind,if_pos hneg,
      put_drop (Nat.lt_of_succ_lt hroom),put_drop hroom]
    simp
  · rw [if_neg hneg] at hfits ⊢
    have hroom : (Nat.toDigits 10 (t.val v).natAbs).length < buf.length := by omega
    simp only [convert,emit_ok (by decide) (by decide) hdigit v hroom.le,ok_bind,if_neg hneg,put_drop hroom]
    simp

theorem convert_ok (t : IntegerType) (v : BitVec t.width) {buf : List Char} (hbuf : maxNumericSize ≤ buf.length) :
    ∃ s r, convert t buf v = .ok r ∧ Formats 10 (t.val v) buf s r :=
  ⟨_,_,convert_eq t v hbuf,
    @formats_integerNumeral 10 20 (by decide) (by decide) (by decide) (by decide) _ (natAbs_val_lt_pow t v) buf⟩

/-- Every pointer value is written as its canonical hexadecimal numeral. -/
theorem convertHex_eq (v : BitVec 64) {buf : List Char} (hbuf : maxNumericSize ≤ buf.length + 2) :
    convertHex buf v = .ok (integerNumeral 16 v.toNat ++ Char.ofNat 0 ::
      buf.drop ((integerNumeral 16 v.toNat).length + 1),(integerNumeral 16 v.toNat).length) := by
  have hf := @formats_integerNumeral 16 16 (by decide) (by decide) (by decide) (by decide)
    v.toNat v.isLt buf
  have hfits := hf.fits
  have hdigit : ∀ i, tableAt digitsHex (IntegerType.unsignedLong.rem i 16) =
      .ok (Nat.digitChar ((IntegerType.unsignedLong.val i).natAbs % 16)) := by
    intro i
    have hr : IntegerType.unsignedLong.rem i 16 = ((IntegerType.unsignedLong.val i).natAbs % 16 : Nat) := by
      rw [IntegerType.rem_eq _ i (by decide)]
      rfl
    rw [hr]
    exact digitsHex_ok (Nat.mod_lt _ (by decide))
  have hnneg : ¬ (v.toNat : Int) < 0 := by omega
  unfold integerNumeral at hfits ⊢
  rw [if_neg hnneg] at hfits ⊢
  have hemit := @emit_ok .unsignedLong 16 (by decide) (by decide) _ hdigit v buf
    (by change (Nat.toDigits 16 (v.toNat : Int).natAbs).length ≤ _; omega)
  have hroom : (Nat.toDigits 16 (v.toNat : Int).natAbs).length < buf.length := by omega
  change emit .unsignedLong 16 (tableAt digitsHex) v buf = .ok ((Nat.toDigits 16 (v.toNat : Int).natAbs).reverse,
    buf.drop (Nat.toDigits 16 (v.toNat : Int).natAbs).length) at hemit
  simp only [convertHex,hemit,ok_bind,put_drop hroom]
  simp

theorem convertHex_ok (v : BitVec 64) {buf : List Char} (hbuf : maxNumericSize ≤ buf.length + 2) :
    ∃ s r, convertHex buf v = .ok r ∧ Formats 16 v.toNat buf s r :=
  ⟨_,_,convertHex_eq v hbuf,
    @formats_integerNumeral 16 16 (by decide) (by decide) (by decide) (by decide) v.toNat v.isLt buf⟩

/-! The stream's buffer. -/

namespace FixedBuffer

def WF (b : FixedBuffer) : Prop := b.cur ≤ b.data.length

/-- The same room with more text behind the old. -/
structure Grown (b b' : FixedBuffer) (s : List Char) : Prop where
  wf : b'.WF
  length : b'.data.length = b.data.length
  cur : b'.cur = b.cur + s.length
  text : b'.asString = b.asString ++ s

/-- Characters written at the cursor, with whatever behind them to the end. -/
theorem grown_write {b : FixedBuffer} (h : b.WF) (s rest : List Char) (hlen : s.length + rest.length = b.data.length - b.cur) :
    b.Grown ⟨b.data.take b.cur ++ (s ++ rest),b.cur + s.length⟩ s := by
  have hcur : b.cur ≤ b.data.length := h
  have hfront : (b.data.take b.cur ++ s).length = b.cur + s.length := by
    rw [List.length_append,List.length_take_of_le hcur]
  have hdata : (b.data.take b.cur ++ (s ++ rest)).length = b.data.length := by
    rw [← List.append_assoc,List.length_append,hfront]
    omega
  refine ⟨?_,hdata,rfl,?_⟩
  · change b.cur + s.length ≤ (b.data.take b.cur ++ (s ++ rest)).length
    omega
  · change (b.data.take b.cur ++ (s ++ rest)).take (b.cur + s.length) = b.data.take b.cur ++ s
    rw [← List.append_assoc,List.take_left' hfront]

/-- The text of the stream grew by a numeral, or not at all. -/
theorem formatInteger_grows {b : FixedBuffer} (h : b.WF) (t : IntegerType) (v : BitVec t.width) :
    if maxNumericSize < b.getAvail then
      ∃ b', b.formatInteger t v = .ok b' ∧ b.Grown b' (integerNumeral 10 (t.val v))
    else b.formatInteger t v = .ok b := by
  have hcur : b.cur ≤ b.data.length := h
  split
  · rename_i hroom
    have havail : b.getAvail = b.data.length - b.cur := rfl
    have hbuf : maxNumericSize ≤ (b.data.drop b.cur).length := by
      rw [List.length_drop]
      omega
    have hlen := length_integerNumeral_le (b := 10) (by decide) (k := 20) (by decide) (natAbs_val_lt_pow t v)
    refine ⟨_,?_,grown_write h _ (Char.ofNat 0 :: (b.data.drop b.cur).drop ((integerNumeral 10 (t.val v)).length + 1)) ?_⟩
    · simp only [formatInteger,if_pos hroom,convert_eq t v hbuf,ok_bind]
    · rw [maxNumericSize] at hroom
      rw [List.length_cons,List.length_drop,List.length_drop]
      omega
  · rename_i hroom
    rw [formatInteger,if_neg hroom]

/-- The inserters of the short types go through a wider type of the same number. -/
theorem insert_eq (b : FixedBuffer) (t : IntegerType) (v : BitVec t.width) :
    ∃ (u : IntegerType) (w : BitVec u.width), u.val w = t.val v ∧ b.insert t v = b.formatInteger u w := by
  cases t with
  | short => exact ⟨.int,v.signExtend 32,BitVec.toInt_signExtend_of_le (by decide),rfl⟩
  | unsignedShort =>
    refine ⟨.unsignedInt,v.setWidth 32,?_,rfl⟩
    exact congrArg Nat.cast (BitVec.toNat_setWidth_of_le (by decide))
  | int => exact ⟨.int,v,rfl,rfl⟩
  | unsignedInt => exact ⟨.unsignedInt,v,rfl,rfl⟩
  | long => exact ⟨.long,v,rfl,rfl⟩
  | unsignedLong => exact ⟨.unsignedLong,v,rfl,rfl⟩
  | longLong => exact ⟨.longLong,v,rfl,rfl⟩
  | unsignedLongLong => exact ⟨.unsignedLongLong,v,rfl,rfl⟩

theorem insert_grows {b : FixedBuffer} (h : b.WF) (t : IntegerType) (v : BitVec t.width) :
    if maxNumericSize < b.getAvail then ∃ b', b.insert t v = .ok b' ∧ b.Grown b' (integerNumeral 10 (t.val v))
    else b.insert t v = .ok b := by
  obtain ⟨u,w,hval,heq⟩ := insert_eq b t v
  rw [heq,← hval]
  exact formatInteger_grows h u w

/-- Where there is room the text that comes in is a numeral behind what is in front of it. -/
private theorem grows_numeral {p : Prop} [Decidable p] {b : FixedBuffer} {x : Except Halt FixedBuffer} (front s : List Char)
    {n : Nat} {v : Int} (hs : IsInteger n s v)
    (hgrows : if p then ∃ b', x = .ok b' ∧ b.Grown b' (front ++ s) else x = .ok b) :
    if p then ∃ s b', x = .ok b' ∧ b'.WF ∧ b'.data.length = b.data.length ∧ b'.asString = b.asString ++ (front ++ s) ∧
      IsInteger n s v
    else x = .ok b := by
  split
  · rename_i hroom
    rw [if_pos hroom] at hgrows
    obtain ⟨b',he,hg⟩ := hgrows
    exact ⟨s,b',he,hg.wf,hg.length,hg.text,hs⟩
  · rename_i hroom
    rwa [if_neg hroom] at hgrows

theorem insert_ok {b : FixedBuffer} (h : b.WF) (t : IntegerType) (v : BitVec t.width) :
    if maxNumericSize < b.getAvail then
      ∃ s b', b.insert t v = .ok b' ∧ b'.WF ∧ b'.data.length = b.data.length ∧
        b'.asString = b.asString ++ s ∧ IsInteger 10 s (t.val v)
    else b.insert t v = .ok b := by
  exact grows_numeral [] _ (isInteger_integerNumeral (by decide) (by decide) _) (insert_grows h t v)

theorem insertPointer_grows {b : FixedBuffer} (h : b.WF) (v : BitVec 64) :
    if maxNumericSize ≤ b.getAvail then
      ∃ b', b.insertPointer v = .ok b' ∧ b.Grown b' ('0' :: 'x' :: integerNumeral 16 v.toNat)
    else b.insertPointer v = .ok b := by
  have hcur : b.cur ≤ b.data.length := h
  split
  · rename_i hroom
    have havail : b.getAvail = b.data.length - b.cur := rfl
    rw [maxNumericSize] at hroom
    have hbuf : maxNumericSize ≤ (b.data.drop (b.cur + 2)).length + 2 := by
      rw [List.length_drop,maxNumericSize]
      omega
    have hlen := length_integerNumeral_le (b := 16) (by decide) (k := 16) (by decide) (v := v.toNat) v.isLt
    have hput : put (b.data.drop b.cur) = .ok (b.data.drop (b.cur + 1)) := put_drop (by omega)
    have hput' : put (b.data.drop (b.cur + 1)) = .ok (b.data.drop (b.cur + 2)) := put_drop (by omega)
    have hg := grown_write h ('0' :: 'x' :: integerNumeral 16 v.toNat) (Char.ofNat 0 ::
      (b.data.drop (b.cur + 2)).drop ((integerNumeral 16 v.toNat).length + 1)) (by
        rw [List.length_cons,List.length_cons,List.length_cons,List.length_drop,List.length_drop]
        omega)
    refine ⟨_,?_,hg⟩
    simp only [insertPointer,maxNumericSize,if_pos hroom,hput,hput',ok_bind,convertHex_eq v hbuf]
    simp
  · rename_i hroom
    rw [insertPointer,if_neg hroom]

theorem insertPointer_ok {b : FixedBuffer} (h : b.WF) (v : BitVec 64) :
    if maxNumericSize ≤ b.getAvail then
      ∃ s b', b.insertPointer v = .ok b' ∧ b'.WF ∧ b'.data.length = b.data.length ∧
        b'.asString = b.asString ++ '0' :: 'x' :: s ∧ IsInteger 16 s v.toNat
    else b.insertPointer v = .ok b := by
  exact grows_numeral ['0','x'] _ (isInteger_integerNumeral (by decide) (by decide) _) (insertPointer_grows h v)

end FixedBuffer

/-- Formatting is exact. On any room of MAX_NUMERIC_SIZE characters each conversion
writes the canonical numeral of every value and its terminator, changes nothing
behind it, returns the numeral's length, and the numeral reads back as the value;
so the stream's inserters append exactly that numeral, or nothing when the room
is short. A table index out of bounds would have halted the conversion. -/
theorem integers_formatted_exactly :
    (∀ buf : List Char, maxNumericSize ≤ buf.length →
      (∀ t v, ∃ s r, convert t buf v = .ok r ∧ Formats 10 (t.val v) buf s r) ∧
      ∀ v, ∃ s r, convertHex buf v = .ok r ∧ Formats 16 v.toNat buf s r) ∧
    ∀ b : FixedBuffer, b.WF →
      (∀ t v, if maxNumericSize < b.getAvail then
          ∃ s b', b.insert t v = .ok b' ∧ b'.WF ∧ b'.data.length = b.data.length ∧
            b'.asString = b.asString ++ s ∧ IsInteger 10 s (t.val v)
        else b.insert t v = .ok b) ∧
      ∀ v, if maxNumericSize ≤ b.getAvail then
          ∃ s b', b.insertPointer v = .ok b' ∧ b'.WF ∧ b'.data.length = b.data.length ∧
            b'.asString = b.asString ++ '0' :: 'x' :: s ∧ IsInteger 16 s v.toNat
        else b.insertPointer v = .ok b :=
  ⟨fun _ hbuf => ⟨fun t v => convert_ok t v hbuf,fun v => convertHex_ok v (Nat.le_add_right_of_le hbuf)⟩,
    fun _ h => ⟨FixedBuffer.insert_ok h,FixedBuffer.insertPointer_ok h⟩⟩

/-- The least value of the widest signed type, into forty free characters. -/
theorem integers_formatted_exactly_min :
    let b : FixedBuffer := ⟨List.replicate 40 (Char.ofNat 0),0⟩
    b.WF ∧ (∃ s b', b.insert .longLong (.intMin 64) = .ok b' ∧ b'.asString = s ∧ readInteger 10 s = some (-2 ^ 63)) ∧
      convert .longLong (List.replicate 32 '#') (.intMin 64) =
        .ok ("-9223372036854775808".toList ++ Char.ofNat 0 :: List.replicate 11 '#',20) := by
  intro b
  have hwf : b.WF := Nat.zero_le _
  refine ⟨hwf,?_,?_⟩
  · have hroom : (maxNumericSize : Int) < b.getAvail := by simp [FixedBuffer.getAvail,b,maxNumericSize]
    have h := (integers_formatted_exactly.2 b hwf).1 .longLong (.intMin 64)
    rw [if_pos hroom] at h
    obtain ⟨s,b',he,-,-,hs,hnum⟩ := h
    exact ⟨s,b',he,hs,readInteger_of_isInteger (by decide) hnum⟩
  · decide +kernel

end LinuxServer.Logging.LogStream
