import LinuxServer.Lib.Numerals

/-! Rows of decimal fields, each as wide as its greatest number: in the order of the
characters they come as their numbers do. -/
namespace LinuxServer.Lib

section Lexicographic
variable {α : Type} [LT α] {as bs cs ds : List α}

/-- What comes behind does not matter. -/
theorem append_lt_append (h : as < bs) (hlen : as.length = bs.length) : as ++ cs < bs ++ ds := by
  induction as generalizing bs with
  | nil =>
    obtain rfl := List.length_eq_zero_iff.mp hlen.symm
    exact absurd h (List.not_lt_nil [])
  | cons a as ih =>
    cases bs with
    | nil => cases hlen
    | cons b bs =>
      rw [List.cons_lt_cons_iff] at h
      rw [List.cons_append,List.cons_append,List.cons_lt_cons_iff]
      rcases h with h | ⟨rfl,h⟩
      · exact .inl h
      · exact .inr ⟨rfl,ih h (Nat.succ.inj hlen)⟩

end Lexicographic

theorem digitChar_lt {d e : Nat} (he : e < 10) (h : d < e) : d.digitChar < e.digitChar := by
  have all : ∀ e < 10, ∀ d < e, Nat.digitChar d < Nat.digitChar e := by decide
  exact all e he d h

/-- The last digit of a field, and the field before it. -/
theorem zeroPadded_succ {width : Nat} (hw : 0 < width) {v : Int} (h0 : 0 ≤ v) :
    zeroPadded (width + 1) v = zeroPadded width (v / 10) ++ [(v % 10).toNat.digitChar] := by
  obtain ⟨n,rfl⟩ := Int.eq_ofNat_of_zero_le h0
  have hq : ((n : Int) / 10) = ((n / 10 : Nat) : Int) := rfl
  have hr : ((n : Int) % 10).toNat = n % 10 := rfl
  rw [hq,hr,zeroPadded,zeroPadded,if_neg (by omega),if_neg (by omega),Int.natAbs_natCast,Int.natAbs_natCast]
  by_cases hn : n < 10
  · have hz : n / 10 = 0 := by omega
    rw [Nat.toDigits_of_lt_base hn,hz,Nat.toDigits_zero,Nat.mod_eq_of_lt hn]
    obtain ⟨w,rfl⟩ := Nat.exists_eq_add_of_lt hw
    simp only [List.leftpad,List.length_singleton,Nat.add_sub_cancel,Nat.zero_add]
    rw [List.append_left_inj,List.replicate_succ']
  · rw [Nat.toDigits_of_base_le (by decide) (by omega)]
    simp only [List.leftpad,List.length_append,List.length_singleton,Nat.add_sub_add_right,List.append_assoc]

/-- Numbers of one width are in the order of their digits. -/
theorem zeroPadded_lt {width : Nat} (hw : 0 < width) {v w : Int} (h0 : 0 ≤ v) (h : v < w) (hmax : w < 10 ^ width) :
    zeroPadded width v < zeroPadded width w := by
  induction width, hw using Nat.le_induction generalizing v w with
  | base =>
    obtain ⟨n,rfl⟩ := Int.eq_ofNat_of_zero_le h0
    obtain ⟨m,rfl⟩ := Int.eq_ofNat_of_zero_le (h0.trans h.le)
    have hn : n < 10 := by omega
    have hm : m < 10 := by omega
    rw [zeroPadded,zeroPadded,if_neg (by omega),if_neg (by omega),Int.natAbs_natCast,Int.natAbs_natCast,
      Nat.toDigits_of_lt_base hn,Nat.toDigits_of_lt_base hm]
    exact List.cons_lt_cons_iff.mpr (.inl (digitChar_lt hm (by omega)))
  | succ width hw ih =>
    have hten : (10 : Int) ^ (width + 1) = 10 ^ width * 10 := pow_succ ..
    rw [zeroPadded_succ hw h0,zeroPadded_succ hw (h0.trans h.le)]
    rcases Int.lt_or_eq_of_le (Int.ediv_le_ediv (by decide : (0 : Int) < 10) h.le) with hlt | heq
    · have hv0 : 0 ≤ v / 10 := Int.ediv_nonneg h0 (by decide)
      have hw' : w / 10 < 10 ^ width := by omega
      refine append_lt_append (ih hv0 hlt hw') ?_
      rw [length_zeroPadded hv0 hw (hlt.trans hw'),length_zeroPadded (hv0.trans hlt.le) hw hw']
    · rw [heq]
      apply List.append_left_lt
      exact List.cons_lt_cons_iff.mpr (.inl (digitChar_lt (by omega) (by omega)))

theorem readNumeral_zeros (k : Nat) (s : List Char) : readNumeral 10 (List.replicate k '0' ++ s) = readNumeral 10 s := by
  induction k with
  | zero => rfl
  | succ k ih => rwa [List.replicate_succ,List.cons_append,readNumeral,List.foldl_cons]

/-- Zeros in front do not change what is read. -/
theorem readInteger_zeroPadded (width : Nat) (v : Int) : readInteger 10 (zeroPadded width v) = some v := by
  have hval := (isNumeral_toDigits (b := 10) (by decide) (by decide) v.natAbs).value
  rw [zeroPadded]
  split
  · rename_i hneg
    rw [readInteger,List.head?_cons,if_pos rfl,List.tail_cons,List.leftpad,readNumeral_zeros,hval,Option.map_some,Option.some.injEq]
    omega
  · have hdigits : ∀ c ∈ (Nat.toDigits 10 v.natAbs).leftpad width '0', ∃ d < 10, c = Nat.digitChar d := by
      intro c hc
      rcases List.mem_append.mp hc with h | h
      · exact ⟨0,by decide,List.eq_of_mem_replicate h⟩
      · exact (isNumeral_toDigits (by decide) (by decide) v.natAbs).digits c h
    have hminus : ((Nat.toDigits 10 v.natAbs).leftpad width '0').head? ≠ some '-' := by
      intro hs
      obtain ⟨d,hd,hc⟩ := hdigits '-' (List.mem_of_mem_head? hs)
      exact digitChar_ne_minus (by omega) hc.symm
    rw [readInteger,if_neg hminus,List.leftpad,readNumeral_zeros,hval,Option.map_some,Option.some.injEq]
    omega

theorem zeroPadded_injective (width : Nat) : Function.Injective (zeroPadded width) := by
  intro v w h
  have hread := congrArg (readInteger 10) h
  rw [readInteger_zeroPadded,readInteger_zeroPadded] at hread
  exact Option.some.inj hread

theorem integerNumeral_injective : Function.Injective (integerNumeral 10) := by
  intro v w h
  have hread := congrArg (readInteger 10) h
  rw [readInteger_of_isInteger (by decide) (isInteger_integerNumeral (by decide) (by decide) v),
    readInteger_of_isInteger (by decide) (isInteger_integerNumeral (by decide) (by decide) w)] at hread
  exact Option.some.inj hread

/-- A number may be wider than its field. -/
theorem length_zeroPadded_le (width : Nat) {k : Nat} (hk : 0 < k) {v : Int} (h : v.natAbs < 10 ^ k) :
    (zeroPadded width v).length ≤ max width k + 1 := by
  have hlen := (Nat.length_toDigits_le_iff (by decide) hk).mpr h
  rw [zeroPadded]
  split
  · rw [List.length_cons,List.length_leftpad]
    omega
  · rw [List.length_leftpad]
    omega

theorem length_blankPadded_le (width : Nat) {k : Nat} (hk : 0 < k) {v : Int} (h : v.natAbs < 10 ^ k) :
    (blankPadded width v).length ≤ max width (k + 1) := by
  have hlen := length_integerNumeral_le (by decide : 1 < 10) hk h
  rw [blankPadded,List.length_leftpad]
  omega

/-! Nothing is padded where the number is as wide as its field. -/
section Wide
variable {k : Nat} {v : Int}

private theorem lt_length_toDigits (h : 10 ^ k ≤ v) : k < (Nat.toDigits 10 v.natAbs).length := by
  cases k with
  | zero => exact Nat.length_toDigits_pos
  | succ k =>
    by_contra hless
    have hlt := (Nat.length_toDigits_le_iff (by decide) (Nat.succ_pos k)).mp (not_lt.mp hless)
    zify at hlt
    exact absurd (h.trans (le_abs_self v)) (not_le.mpr hlt)

theorem zeroPadded_of_wide (h : 10 ^ k ≤ v) : zeroPadded (k + 1) v = integerNumeral 10 v := by
  have h0 : ¬ v < 0 := not_lt.mpr ((pow_nonneg (by decide) k).trans h)
  rw [zeroPadded,integerNumeral,if_neg h0,if_neg h0,List.leftpad,Nat.sub_eq_zero_of_le (lt_length_toDigits h)]
  rfl

theorem blankPadded_of_wide (h : 10 ^ k ≤ v) : blankPadded (k + 1) v = integerNumeral 10 v := by
  have h0 : ¬ v < 0 := not_lt.mpr ((pow_nonneg (by decide) k).trans h)
  rw [blankPadded,integerNumeral,if_neg h0,List.leftpad,Nat.sub_eq_zero_of_le (lt_length_toDigits h)]
  rfl

end Wide

/-- A field: how wide it is, and the text behind it. -/
structure Field where
  width : Nat
  after : List Char

def row : List Field → List Int → List Char
  | f :: fields, v :: vs => zeroPadded f.width v ++ (f.after ++ row fields vs)
  | _, _ => []

def Field.Holds (f : Field) (v : Int) : Prop := 0 < f.width ∧ 0 ≤ v ∧ v < 10 ^ f.width

theorem row_lt {fields : List Field} {vs ws : List Int} (hv : List.Forall₂ Field.Holds fields vs)
    (hw : List.Forall₂ Field.Holds fields ws) (h : vs < ws) : row fields vs < row fields ws := by
  induction hv generalizing ws with
  | nil =>
    cases hw
    exact absurd h (List.not_lt_nil [])
  | @cons f v fields vs hhead _ ih =>
    cases hw with
    | @cons _ w _ ws hhead' hrest' =>
      obtain ⟨hwidth,h0,hv⟩ := hhead
      obtain ⟨-,h0',hw⟩ := hhead'
      rw [List.cons_lt_cons_iff] at h
      rcases h with h | ⟨rfl,h⟩
      · refine append_lt_append (zeroPadded_lt hwidth h0 h hw) ?_
        rw [length_zeroPadded h0 hwidth hv,length_zeroPadded h0' hwidth hw]
      · exact List.append_left_lt (List.append_left_lt (ih hrest' h))

/-- The order of the rows is that of the numbers. -/
theorem row_lt_iff {fields : List Field} {vs ws : List Int} (hv : List.Forall₂ Field.Holds fields vs)
    (hw : List.Forall₂ Field.Holds fields ws) : row fields vs < row fields ws ↔ vs < ws := by
  refine ⟨fun h => ?_,row_lt hv hw⟩
  by_contra hnot
  rcases (not_lt.mp hnot).lt_or_eq with hlt | rfl
  · exact lt_asymm h (row_lt hw hv hlt)
  · exact lt_irrefl _ h

end LinuxServer.Lib
