import LinuxServer.Lib.FixedWidth
import LinuxServer.Logging.LogTime

/-! The texts of a TimeStamp. The plain one stands for one time only, before the epoch
too; the formatted ones sort by the times, as the clock's own fields do. -/
namespace LinuxServer.Datetime.TimeStamp
open LinuxServer.Lib
open LinuxServer.Logging.LogTime

/-- "%ld.%06ld". -/
def plainText (microSecondsSinceEpoch : Int) : List Char :=
  integerNumeral 10 (microSecondsSinceEpoch.tdiv microSecondPerSecond) ++
    '.' :: zeroPadded 6 (microSecondsSinceEpoch.tmod microSecondPerSecond)

/-- "%4d%02d%02d %02d:%02d:%02d.%06d". -/
def formattedText (microSecondsSinceEpoch : Int) : List Char :=
  timeText (gmtime_r (microSecondsSinceEpoch.tdiv microSecondPerSecond)) ++
    '.' :: zeroPadded 6 (microSecondsSinceEpoch.tmod microSecondPerSecond)

/-- A buffer of 32 zeros, and the string in it. -/
def printed (text : List Char) : Except Halt CString := do
  let (buf,_) ← snprintf (List.replicate 32 terminator) 32 text
  CString.ofMemory buf

def toString (microSecondsSinceEpoch : Int) : Except Halt CString := printed (plainText microSecondsSinceEpoch)
def toFormattedString (microSecondsSinceEpoch : Int) : Except Halt CString := printed (formattedText microSecondsSinceEpoch)

/-! What the clock shows. -/
section Clock

def clock (seconds : Int) : List Int :=
  let tm := gmtime_r seconds
  [tm.tm_year + 1900,tm.tm_mon + 1,tm.tm_mday,tm.tm_hour,tm.tm_min,tm.tm_sec]

variable {seconds seconds' : Int}

/-- Not before the epoch, and in a year that has four digits. -/
structure Shown (seconds : Int) : Prop where
  nonneg : 0 ≤ seconds
  year : (gmtime_r seconds).tm_year + 1900 ≤ 9999

theorem year_wide (h : 0 ≤ seconds) : 10 ^ 3 ≤ (gmtime_r seconds).tm_year + 1900 := by
  have hle := Calendar.le_year (seconds / 86400) (Int.ediv_nonneg h (by decide))
  simp only [gmtime_r]
  omega

/-- The clock never goes back. -/
theorem clock_lt (h : seconds < seconds') : clock seconds < clock seconds' := by
  simp only [clock,gmtime_r,List.cons_lt_cons_iff]
  by_cases hsame : seconds / 86400 = seconds' / 86400
  · rw [hsame]
    refine .inr ⟨rfl,.inr ⟨rfl,.inr ⟨rfl,?_⟩⟩⟩
    by_cases hhour : seconds % 86400 / 3600 = seconds' % 86400 / 3600
    · refine .inr ⟨hhour,?_⟩
      by_cases hmin : seconds % 86400 / 60 % 60 = seconds' % 86400 / 60 % 60
      · exact .inr ⟨hmin,.inl (by omega)⟩
      · exact .inl (by omega)
    · exact .inl (by omega)
  · have hdays : seconds / 86400 < seconds' / 86400 := by omega
    rcases Calendar.dateOf_lt hdays with hyear | ⟨hyear,hmonth | ⟨hmonth,hday⟩⟩
    · exact .inl (by omega)
    · exact .inr ⟨by omega,.inl (by omega)⟩
    · exact .inr ⟨by omega,.inr ⟨by omega,.inl (by omega)⟩⟩

theorem clock_holds (h : Shown seconds) {fields : List Field} (hwidths : fields.map Field.width = [4,2,2,2,2,2]) :
    List.Forall₂ Field.Holds fields (clock seconds) := by
  obtain ⟨h0,hyear⟩ := h
  obtain ⟨hmonth,hday,hday'⟩ := Calendar.dateOf_fields (seconds / 86400)
  have hle := Calendar.le_year (seconds / 86400) (Int.ediv_nonneg h0 (by decide))
  have hwide : List.Forall₂ (fun width v => 0 < width ∧ 0 ≤ v ∧ v < 10 ^ width) [4,2,2,2,2,2] (clock seconds) := by
    simp only [gmtime_r] at hyear
    simp only [clock,gmtime_r,List.forall₂_cons,List.forall₂_nil_right_iff]
    refine ⟨?_,?_,?_,?_,?_,?_,trivial⟩ <;> omega
  rwa [← hwidths,List.forall₂_map_left_iff] at hwide

end Clock

/-! The text with the fields of the clock. -/
section Formatted
variable {t u : Int}

def layout : List Field := [⟨4,[]⟩,⟨2,[]⟩,⟨2,[' ']⟩,⟨2,[':']⟩,⟨2,[':']⟩,⟨2,['.']⟩]

def moment (t : Int) : List Int := clock (t / microSecondPerSecond) ++ [t % microSecondPerSecond]

theorem Shown.of_seconds (h : Shown (t / microSecondPerSecond)) : 0 ≤ t := by
  have h0 := h.nonneg
  have hmicro : microSecondPerSecond = 1000000 := rfl
  rw [hmicro] at h0
  omega

theorem moment_lt (h : t < u) : moment t < moment u := by
  have hmicro : microSecondPerSecond = 1000000 := rfl
  simp only [moment,hmicro]
  by_cases hsame : t / 1000000 = u / 1000000
  · rw [hsame]
    exact List.append_left_lt (List.cons_lt_cons_iff.mpr (.inl (by omega)))
  · exact append_lt_append (clock_lt (by omega)) rfl

theorem moment_holds (h : Shown (t / microSecondPerSecond)) :
    List.Forall₂ Field.Holds (layout ++ [⟨6,[]⟩]) (moment t) := by
  refine List.rel_append (clock_holds h rfl) ?_
  have hmicro : microSecondPerSecond = 1000000 := rfl
  rw [hmicro]
  refine .cons ⟨by decide,by omega,?_⟩ .nil
  change t % 1000000 < 10 ^ 6
  omega

/-- Behind the epoch the text is a row of fields. -/
theorem formattedText_eq_row (h0 : 0 ≤ t) : formattedText t = row (layout ++ [⟨6,[]⟩]) (moment t) := by
  have hyear := year_wide (Int.ediv_nonneg h0 (by decide : (0 : Int) ≤ microSecondPerSecond))
  rw [formattedText,Int.tdiv_eq_ediv_of_nonneg h0,Int.tmod_eq_emod_of_nonneg h0,timeText,blankPadded_of_wide hyear,← zeroPadded_of_wide hyear]
  simp only [row,layout,moment,clock,List.cons_append,List.nil_append,List.append_assoc,List.append_nil]

/-- Texts of times that the clock shows sort as the times do. -/
theorem formattedText_lt_iff (ht : Shown (t / microSecondPerSecond)) (hu : Shown (u / microSecondPerSecond)) :
    formattedText t < formattedText u ↔ t < u := by
  rw [formattedText_eq_row ht.of_seconds,formattedText_eq_row hu.of_seconds,row_lt_iff (moment_holds ht) (moment_holds hu)]
  exact StrictMono.lt_iff_lt (f := moment) fun _ _ => moment_lt

end Formatted

/-! Every time that 64 bits can hold. -/
section Buffer
variable {t u : Int}

/-- The value of an int64_t. -/
def Int64 (t : Int) : Prop := -2 ^ 63 ≤ t ∧ t < 2 ^ 63

instance (t : Int) : Decidable (Int64 t) := inferInstanceAs (Decidable (_ ∧ _))

private theorem quotient_small (h : Int64 t) : (t.tdiv microSecondPerSecond).natAbs < 10 ^ 13 := by
  obtain ⟨hlow,hhigh⟩ := h
  rw [Int.natAbs_tdiv]
  change t.natAbs / 1000000 < 10 ^ 13
  omega

private theorem remainder_small (t : Int) : (t.tmod microSecondPerSecond).natAbs < 10 ^ 6 := by
  rw [Int.natAbs_tmod]
  exact Nat.mod_lt _ (by decide)

private theorem length_plainText (h : Int64 t) : (plainText t).length < 32 := by
  have hquot := length_integerNumeral_le (by decide : 1 < 10) (by decide) (quotient_small h)
  have hrest := length_zeroPadded_le 6 (by decide) (remainder_small t)
  rw [plainText,List.length_append,List.length_cons]
  omega

private theorem length_formattedText (h : Int64 t) : (formattedText t).length < 32 := by
  have hseconds := quotient_small h
  have hrest := length_zeroPadded_le 6 (by decide) (remainder_small t)
  rw [formattedText]
  generalize t.tdiv microSecondPerSecond = seconds at hseconds ⊢
  obtain ⟨hmonth,hday,hday'⟩ := Calendar.dateOf_fields (seconds / 86400)
  have hyear := Calendar.year_between (seconds / 86400)
  have hyears := @length_blankPadded_le 4 6 (by decide) ((gmtime_r seconds).tm_year + 1900) (by
    simp only [gmtime_r,Calendar.period] at hyear ⊢
    omega)
  have htwo : ∀ v : Int, 0 ≤ v → v < 100 → (zeroPadded 2 v).length = 2 := fun v h0 hv => length_zeroPadded h0 (by decide) hv
  simp only [timeText,gmtime_r,List.length_append,List.length_cons,List.length_nil] at hyears ⊢
  rw [htwo _ (by omega) (by omega),htwo _ (by omega) (by omega),htwo _ (by omega) (by omega),htwo _ (by omega) (by omega),
    htwo _ (by omega) (by omega)]
  omega

private theorem point_notMem_zeroPadded (width : Nat) (v : Int) : '.' ∉ zeroPadded width v := by
  intro h
  exact absurd (fieldChar_zeroPadded h) (by decide)

private theorem terminator_notMem_plainText (t : Int) : terminator ∉ plainText t := by
  intro h
  rcases List.mem_append.mp h with h | h
  · exact absurd (fieldChar_integerNumeral h) (by decide)
  · rcases List.mem_cons.mp h with h | h
    · exact absurd h (by decide)
    · exact absurd (fieldChar_zeroPadded h) (by decide)

private theorem terminator_notMem_formattedText (t : Int) : terminator ∉ formattedText t := by
  intro h
  rcases List.mem_append.mp h with h | h
  · exact terminator_notMem_timeText _ h
  · rcases List.mem_cons.mp h with h | h
    · exact absurd h (by decide)
    · exact absurd (fieldChar_zeroPadded h) (by decide)

/-- A text with room in the buffer is the string that is returned. -/
private theorem printed_ok {text : List Char} (hnot : terminator ∉ text) (hlen : text.length < 32) :
    ∃ s, printed text = .ok s ∧ s.chars = text := by
  obtain ⟨mem,hprint,-,hmem⟩ := @ofMemory_snprintf_whole (List.replicate 32 terminator) 32 ⟨text,hnot⟩ hlen
    (List.length_replicate ..).ge
  refine ⟨⟨text,hnot⟩,?_,rfl⟩
  change snprintf _ 32 text = _ at hprint
  rw [printed,hprint]
  exact hmem

/-- The point divides the text where the seconds end. -/
theorem plainText_injective : Function.Injective plainText := by
  intro t u h
  have hpoint : '.' ∉ integerNumeral 10 (t.tdiv microSecondPerSecond) := fun hmem => absurd (fieldChar_integerNumeral hmem) (by decide)
  obtain ⟨hseconds,-,hmicros⟩ := (List.append_cons_inj_of_notMem hpoint (point_notMem_zeroPadded 6 _)).mp h
  rw [← Int.mul_tdiv_add_tmod t microSecondPerSecond,← Int.mul_tdiv_add_tmod u microSecondPerSecond,
    zeroPadded_injective 6 hmicros,integerNumeral_injective hseconds]

/-- Every time of 64 bits has its text whole in the buffer, and no two the same. -/
theorem toString_injective (ht : Int64 t) (hu : Int64 u) :
    (∃ s, toString t = .ok s ∧ s.chars = plainText t) ∧ (toString t = toString u → t = u) := by
  obtain ⟨s,hs,htext⟩ := printed_ok (terminator_notMem_plainText t) (length_plainText ht)
  obtain ⟨s',hs',htext'⟩ := printed_ok (terminator_notMem_plainText u) (length_plainText hu)
  refine ⟨⟨s,hs,htext⟩,fun h => ?_⟩
  rw [toString,toString,hs,hs',Except.ok.injEq] at h
  rw [h,htext'] at htext
  exact (plainText_injective htext).symm

/-- Half a second before the epoch, and behind it. -/
theorem toString_injective_half : toString (-500000) ≠ toString 500000 := by
  intro h
  exact absurd ((toString_injective (by decide) (by decide)).2 h) (by decide)

/-- Every time of 64 bits has its formatted text whole in the buffer, and from the epoch to
the end of the year 9999 these texts sort as the times do. -/
theorem toFormattedString_sorts (ht : Int64 t) (hu : Int64 u) : ∃ s s', toFormattedString t = .ok s ∧ s.chars = formattedText t ∧
    toFormattedString u = .ok s' ∧ s'.chars = formattedText u ∧
    (Shown (t / microSecondPerSecond) → Shown (u / microSecondPerSecond) → (s.chars < s'.chars ↔ t < u)) := by
  obtain ⟨s,hs,htext⟩ := printed_ok (terminator_notMem_formattedText t) (length_formattedText ht)
  obtain ⟨s',hs',htext'⟩ := printed_ok (terminator_notMem_formattedText u) (length_formattedText hu)
  refine ⟨s,s',hs,htext,hs',htext',fun hshown hshown' => ?_⟩
  rw [htext,htext']
  exact formattedText_lt_iff hshown hshown'

/-- The last microsecond of a century, and the next one. -/
theorem toFormattedString_sorts_newYear : ∃ s s', toFormattedString 946684799999999 = .ok s ∧
    toFormattedString 946684800000000 = .ok s' ∧ s.chars < s'.chars := by
  obtain ⟨s,s',hs,-,hs',-,hsorts⟩ := @toFormattedString_sorts 946684799999999 946684800000000 (by decide) (by decide)
  exact ⟨s,s',hs,hs',(hsorts ⟨by decide,by decide +kernel⟩ ⟨by decide,by decide +kernel⟩).mpr (by decide)⟩

end Buffer
end LinuxServer.Datetime.TimeStamp
