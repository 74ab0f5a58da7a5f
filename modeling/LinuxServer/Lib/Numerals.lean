import Mathlib

/-! Canonical numerals of naturals and integers in a base up to sixteen:
what they are, and that reading one back gives the number. -/
namespace LinuxServer.Lib

/-- The value of a digit of the base. -/
def digitValue (b : Nat) (c : Char) : Option Nat := (List.range b).find? fun d => d.digitChar = c

/-- The value of a word of digits, most significant first. -/
def readNumeral (b : Nat) (s : List Char) : Option Nat :=
  s.foldl (fun acc c => acc.bind fun n => (digitValue b c).map (b * n + ·)) (some 0)

/-- A numeral with an optional minus sign. -/
def readInteger (b : Nat) (s : List Char) : Option Int :=
  if s.head? = some '-' then (readNumeral b s.tail).map fun n : Nat => -(n : Int)
  else (readNumeral b s).map fun n : Nat => (n : Int)

/-- A nonempty word of digits, no zero in front unless alone, with its value. -/
structure IsNumeral (b : Nat) (s : List Char) (n : Nat) : Prop where
  ne_nil : s ≠ []
  digits : ∀ c ∈ s, ∃ d < b, c = d.digitChar
  no_leading_zero : s.head? = some '0' → s = ['0']
  value : readNumeral b s = some n

/-- A minus sign exactly in front of the negative numbers. -/
def IsInteger (b : Nat) (s : List Char) (v : Int) : Prop :=
  if v < 0 then ∃ t, s = '-' :: t ∧ IsNumeral b t v.natAbs else IsNumeral b s v.natAbs

def integerNumeral (b : Nat) (v : Int) : List Char :=
  if v < 0 then '-' :: b.toDigits v.natAbs else b.toDigits v.natAbs

variable {b : Nat}

theorem digitChar_inj (d e : Nat) (hd : d < 16) (he : e < 16) (h : d.digitChar = e.digitChar) : d = e := by
  have all : ∀ d < 16, ∀ e < 16, Nat.digitChar d = Nat.digitChar e → d = e := by decide
  exact all d hd e he h

theorem digitValue_digitChar (hb : b ≤ 16) {d : Nat} (hd : d < b) : digitValue b d.digitChar = some d := by
  rw [digitValue,List.find?_range_eq_some]
  refine ⟨by simp,List.mem_range.mpr hd,?_⟩
  intro e he
  have hne : ¬ e.digitChar = d.digitChar := fun h => he.ne (digitChar_inj e d (by omega) (by omega) h)
  simpa using hne

theorem readNumeral_concat (s : List Char) (c : Char) :
    readNumeral b (s ++ [c]) = (readNumeral b s).bind fun n => (digitValue b c).map (b * n + ·) := by
  simp [readNumeral]

theorem digitChar_ne_zero {d : Nat} (hd : d < 16) (h0 : d ≠ 0) : d.digitChar ≠ '0' := by
  intro h
  exact h0 (digitChar_inj d 0 hd (by decide) h)

theorem digitChar_ne_minus {d : Nat} (hd : d < 16) : d.digitChar ≠ '-' := by
  have all : ∀ d < 16, Nat.digitChar d ≠ '-' := by decide
  exact all d hd

/-- The digits of a positive number begin with a digit that is not zero. -/
theorem head_toDigits_ne_zero (hb : 1 < b) (hb16 : b ≤ 16) {n : Nat} (hn : 0 < n) :
    (b.toDigits n).head? ≠ some '0' := by
  induction n using Nat.strong_induction_on with
  | _ n ih =>
    rw [Nat.toDigits_eq_if hb]
    split
    · rename_i hlt
      rw [List.head?_cons,ne_eq,Option.some.injEq]
      exact digitChar_ne_zero (by omega) (by omega)
    · rename_i hge
      have hdiv : 0 < n / b := Nat.div_pos (by omega) (by omega)
      rw [List.head?_append_of_ne_nil _ Nat.toDigits_ne_nil]
      exact ih (n / b) (Nat.div_lt_self hn hb) hdiv

/-- The digits that repeated division produces are the canonical numeral. -/
theorem isNumeral_toDigits (hb : 1 < b) (hb16 : b ≤ 16) (n : Nat) : IsNumeral b (b.toDigits n) n := by
  induction n using Nat.strong_induction_on with
  | _ n ih =>
    have hmod : n % b < b := Nat.mod_lt _ (by omega)
    by_cases hlt : n < b
    · rw [Nat.toDigits_of_lt_base hlt]
      refine ⟨by simp,?_,?_,?_⟩
      · intro c hc
        exact ⟨n,hlt,List.mem_singleton.mp hc⟩
      · intro h
        rw [List.head?_cons,Option.some.injEq] at h
        rw [h]
      · rw [← List.nil_append [n.digitChar],readNumeral_concat,digitValue_digitChar hb16 hlt]
        simp [readNumeral]
    · have hpos : 0 < n := by omega
      obtain ⟨-,hdigits,-,hval⟩ := ih (n / b) (Nat.div_lt_self hpos hb)
      have hzero := head_toDigits_ne_zero hb hb16 hpos
      rw [Nat.toDigits_eq_if hb,if_neg hlt] at hzero ⊢
      refine ⟨by simp,?_,fun h => absurd h hzero,?_⟩
      · intro c hc
        rcases List.mem_append.mp hc with hc | hc
        · exact hdigits c hc
        · exact ⟨n % b,hmod,List.mem_singleton.mp hc⟩
      · rw [readNumeral_concat,hval,digitValue_digitChar hb16 hmod]
        simp [Nat.div_add_mod]

/-- Different numbers have different numerals. -/
theorem toDigits_injective : Function.Injective (Nat.toDigits 10) := by
  intro n m h
  have hn := (isNumeral_toDigits (b := 10) (by decide) (by decide) n).value
  have hm := (isNumeral_toDigits (b := 10) (by decide) (by decide) m).value
  rw [h] at hn
  exact Option.some.inj (hn.symm.trans hm)

theorem isInteger_integerNumeral (hb : 1 < b) (hb16 : b ≤ 16) (v : Int) : IsInteger b (integerNumeral b v) v := by
  rw [IsInteger,integerNumeral]
  split
  · exact ⟨_,rfl,isNumeral_toDigits hb hb16 _⟩
  · exact isNumeral_toDigits hb hb16 _

/-- Reading a canonical numeral back gives the number it stands for. -/
theorem readInteger_of_isInteger (hb16 : b ≤ 16) {s : List Char} {v : Int} (h : IsInteger b s v) :
    readInteger b s = some v := by
  rw [IsInteger] at h
  split at h
  · rename_i hneg
    obtain ⟨t,rfl,ht⟩ := h
    rw [readInteger,List.head?_cons,if_pos rfl,List.tail_cons,ht.value,Option.map_some,Option.some.injEq]
    omega
  · have hminus : s.head? ≠ some '-' := by
      intro hs
      obtain ⟨d,hd,hc⟩ := h.digits '-' (List.mem_of_mem_head? hs)
      exact digitChar_ne_minus (by omega) hc.symm
    rw [readInteger,if_neg hminus,h.value,Option.map_some,Option.some.injEq]
    omega

theorem length_integerNumeral_le (hb : 1 < b) {v : Int} {k : Nat} (hk : 0 < k) (h : v.natAbs < b ^ k) :
    (integerNumeral b v).length ≤ k + 1 := by
  have hlen := (Nat.length_toDigits_le_iff hb hk).mpr h
  rw [integerNumeral]
  split
  · rw [List.length_cons]
    omega
  · omega

/-! Numerals in a field that is at least so wide. -/

def blankPadded (width : Nat) (v : Int) : List Char := (integerNumeral 10 v).leftpad width ' '

/-- Zeros go behind the sign. -/
def zeroPadded (width : Nat) (v : Int) : List Char :=
  if v < 0 then '-' :: (Nat.toDigits 10 v.natAbs).leftpad (width - 1) '0' else (Nat.toDigits 10 v.natAbs).leftpad width '0'

theorem length_integerNumeral_of_nonneg {v : Int} {k : Nat} (h0 : 0 ≤ v) (hk : 0 < k) (h : v < 10 ^ k) :
    (integerNumeral 10 v).length ≤ k := by
  rw [integerNumeral,if_neg (not_lt.mpr h0)]
  apply (Nat.length_toDigits_le_iff (by decide) hk).mpr
  zify
  rwa [abs_of_nonneg h0]

theorem length_blankPadded {v : Int} {width : Nat} (h0 : 0 ≤ v) (hw : 0 < width) (h : v < 10 ^ width) :
    (blankPadded width v).length = width := by
  have hlen := length_integerNumeral_of_nonneg h0 hw h
  rw [blankPadded,List.length_leftpad]
  omega

theorem length_zeroPadded {v : Int} {width : Nat} (h0 : 0 ≤ v) (hw : 0 < width) (h : v < 10 ^ width) :
    (zeroPadded width v).length = width := by
  have hlen := length_integerNumeral_of_nonneg h0 hw h
  rw [integerNumeral,if_neg (not_lt.mpr h0)] at hlen
  rw [zeroPadded,if_neg (not_lt.mpr h0),List.length_leftpad]
  omega

/-- The characters of numerals, and those that pad them. -/
def FieldChar (c : Char) : Prop := c = ' ' ∨ c = '-' ∨ ∃ d < 10, c = Nat.digitChar d

instance : DecidablePred FieldChar := fun c => inferInstanceAs (Decidable (c = ' ' ∨ c = '-' ∨ ∃ d < 10, c = Nat.digitChar d))

theorem fieldChar_toDigits {n : Nat} {c : Char} (h : c ∈ Nat.toDigits 10 n) : FieldChar c :=
  .inr (.inr ((isNumeral_toDigits (by decide) (by decide) n).digits c h))

theorem fieldChar_integerNumeral {v : Int} {c : Char} (h : c ∈ integerNumeral 10 v) : FieldChar c := by
  rw [integerNumeral] at h
  split at h
  · rcases List.mem_cons.mp h with rfl | h
    · exact .inr (.inl rfl)
    · exact fieldChar_toDigits h
  · exact fieldChar_toDigits h

theorem fieldChar_leftpad {s : List Char} {a c : Char} {n : Nat} (ha : FieldChar a) (hs : ∀ c ∈ s, FieldChar c)
    (h : c ∈ s.leftpad n a) : FieldChar c := by
  rcases List.mem_append.mp h with h | h
  · rwa [List.eq_of_mem_replicate h]
  · exact hs c h

theorem fieldChar_blankPadded {width : Nat} {v : Int} {c : Char} (h : c ∈ blankPadded width v) : FieldChar c :=
  fieldChar_leftpad (.inl rfl) (fun _ => fieldChar_integerNumeral) h

theorem fieldChar_zeroPadded {width : Nat} {v : Int} {c : Char} (h : c ∈ zeroPadded width v) : FieldChar c := by
  have hzero : FieldChar '0' := .inr (.inr ⟨0,by decide,rfl⟩)
  rw [zeroPadded] at h
  split at h
  · rcases List.mem_cons.mp h with rfl | h
    · exact .inr (.inl rfl)
    · exact fieldChar_leftpad hzero (fun _ => fieldChar_toDigits) h
  · exact fieldChar_leftpad hzero (fun _ => fieldChar_toDigits) h

end LinuxServer.Lib
