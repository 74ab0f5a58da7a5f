import LinuxServer.Logging.LogFile

/-! When a log file rolls: the policy of size and period, against the counter, the
readings of the clock and the widths of the members by which the code decides. -/
namespace LinuxServer.Logging.LogFile
open LinuxServer.Lib

/-- The log, the bytes appended to its current file, and the appends within the roll
size since the clock was last consulted. -/
structure Watched where
  log : State
  bytes : Nat
  quiet : Nat

variable (env : Env)

def watch (w : Watched) (pLogLine : List UInt8) : Except Halt Watched := do
  let log ← append env w.log pLogLine
  let bytes := w.bytes + pLogLine.length
  .ok ⟨log,if w.log.opened.length < log.opened.length then 0 else bytes,
    if env.unRollSize < bytes then w.quiet else if w.log.times < log.times then 0 else w.quiet + 1⟩

def rolling : Machine Watched (List UInt8) Halt := ⟨fun w => new env = .ok w.log ∧ w.bytes = 0 ∧ w.quiet = 0,watch env⟩

/-- The size test of the code: both of its sides have lost their high bits. -/
def Full (w : Watched) (pLogLine : List UInt8) : Prop := unRollSize env < (w.bytes + pLogLine.length) % 2 ^ 64

/-- The append is beyond the roll size that was given. -/
def Exceeds (w : Watched) (pLogLine : List UInt8) : Prop := env.unRollSize < w.bytes + pLogLine.length

/-- The append consults the clock for the period check. -/
def Checks (w : Watched) (pLogLine : List UInt8) : Prop := ¬ Full env w pLogLine ∧ checkTimeRoll < w.log.nCnt

/-- The reading is later than the last roll. -/
def Late (w : Watched) : Prop := w.log.tLastRoll < env.time w.log.times

/-- The reading lies in a later period than the current file. -/
def LaterPeriod (w : Watched) : Prop :=
  w.log.tLastRoll.tdiv rollPerSeconds < (env.time w.log.times).tdiv rollPerSeconds

/-- The policy of an append: when it starts a new file, and that at most 1025 appends
within the roll size pass without the clock. -/
def Obeys (w : Watched) (pLogLine : List UInt8) (w' : Watched) : Prop :=
  (w.log.opened.length < w'.log.opened.length ↔
    Late env w ∧ (Exceeds env w pLogLine ∨ Checks env w pLogLine ∧ LaterPeriod env w)) ∧
    w'.quiet ≤ 1025

/-- The size test is that of the given roll size, or makes no difference: the reading is not
later than the last roll, or the period check rolls the file. -/
def SizeTestFits (w : Watched) (pLogLine : List UInt8) : Prop :=
  (Full env w pLogLine ↔ Exceeds env w pLogLine) ∨ ¬ Late env w ∨ Checks env w pLogLine ∧ LaterPeriod env w

/-- The append needs no look at the clock, or takes one. -/
def WindowFits (w : Watched) (pLogLine : List UInt8) : Prop :=
  Exceeds env w pLogLine ∨ Full env w pLogLine ∨ Checks env w pLogLine ∨ w.quiet < 1025

/-- The bytes of a file are a size_t. -/
def BytesFit (w : Watched) (pLogLine : List UInt8) : Prop := w.bytes + pLogLine.length < 2 ^ 64

section Decidable
variable (w : Watched) (pLogLine : List UInt8)

instance : Decidable (Full env w pLogLine) := inferInstanceAs (Decidable (_ < (_ % _ : Nat)))
instance : Decidable (Exceeds env w pLogLine) := inferInstanceAs (Decidable (env.unRollSize < w.bytes + pLogLine.length))
instance : Decidable (Checks env w pLogLine) := inferInstanceAs (Decidable (¬ Full env w pLogLine ∧ checkTimeRoll < w.log.nCnt))
instance : Decidable (Late env w) := inferInstanceAs (Decidable (w.log.tLastRoll < env.time w.log.times))
instance : Decidable (LaterPeriod env w) :=
  inferInstanceAs (Decidable (w.log.tLastRoll.tdiv rollPerSeconds < (env.time w.log.times).tdiv rollPerSeconds))
instance : Decidable (SizeTestFits env w pLogLine) :=
  inferInstanceAs (Decidable ((Full env w pLogLine ↔ Exceeds env w pLogLine) ∨ ¬ Late env w ∨
    Checks env w pLogLine ∧ LaterPeriod env w))
instance : Decidable (WindowFits env w pLogLine) :=
  inferInstanceAs (Decidable (Exceeds env w pLogLine ∨ Full env w pLogLine ∨ Checks env w pLogLine ∨ w.quiet < 1025))

end Decidable

variable {env}

/-! A line goes to the current file, whatever fwrite returns. -/

/-- The same state but for what fwrite does. -/
structure SameButWrites (s s' : State) : Prop where
  nCnt : s'.nCnt = s.nCnt
  tStartOfPeriod : s'.tStartOfPeriod = s.tStartOfPeriod
  tLastRoll : s'.tLastRoll = s.tLastRoll
  times : s'.times = s.times
  opened : s'.opened = s.opened

theorem SameButWrites.refl (s : State) : SameButWrites s s := ⟨rfl,rfl,rfl,rfl,rfl⟩

theorem SameButWrites.trans {s s₁ s₂ : State} (h : SameButWrites s s₁) (h' : SameButWrites s₁ s₂) : SameButWrites s s₂ :=
  ⟨h'.nCnt.trans h.nCnt,h'.tStartOfPeriod.trans h.tStartOfPeriod,h'.tLastRoll.trans h.tLastRoll,h'.times.trans h.times,
    h'.opened.trans h.opened⟩

theorem sameButWrites_write (s : State) (strFileName : String) (data : List UInt8) :
    SameButWrites s (write env s strFileName data).1 := ⟨rfl,rfl,rfl,rfl,rfl⟩

theorem writeRest_same {strFileName : String} {fuel : Nat} (s : State) (rest : List UInt8) (hfuel : rest.length ≤ fuel) :
    ∃ s', writeRest env strFileName fuel s rest = .ok s' ∧ SameButWrites s s' := by
  induction fuel generalizing s rest with
  | zero =>
    obtain rfl := List.length_eq_zero_iff.mp (Nat.le_zero.mp hfuel)
    exact ⟨s,rfl,.refl s⟩
  | succ fuel ih =>
    have hwrite := @sameButWrites_write env s strFileName rest
    rw [writeRest]
    split
    · by_cases hnone : (write env s strFileName rest).2 = 0
      · exact ⟨_,by simp only [hnone,if_true],hwrite⟩
      · have hless : (rest.drop (write env s strFileName rest).2).length ≤ fuel := by
          rw [List.length_drop]
          omega
        obtain ⟨s',hrun,hsame⟩ := ih (write env s strFileName rest).1 _ hless
        exact ⟨s',by simp only [hnone,if_false]; exact hrun,hwrite.trans hsame⟩
    · exact ⟨s,rfl,.refl s⟩

theorem fileAppend_same (s : State) (f : File) (pLogLine : List UInt8) :
    ∃ s', fileAppend env s f pLogLine =
      .ok (s',{ f with unWrittenBytes := (f.unWrittenBytes + pLogLine.length) % 2 ^ 64 }) ∧ SameButWrites s s' := by
  have hless : (pLogLine.drop (write env s f.strFileName pLogLine).2).length ≤ pLogLine.length := by
    rw [List.length_drop]
    omega
  obtain ⟨s',hrun,hsame⟩ := @writeRest_same env f.strFileName _ (write env s f.strFileName pLogLine).1 _ hless
  exact ⟨s',by simp only [fileAppend,hrun,ok_bind],(sameButWrites_write s f.strFileName pLogLine).trans hsame⟩

/-! One append. -/

theorem rollFile_late {s : State} (h : s.tLastRoll < env.time s.times) :
    rollFile env s = { s with
      times := s.times + 1
      tLastRoll := env.time s.times
      tLaseFlush := env.time s.times
      tStartOfPeriod := (env.time s.times).tdiv rollPerSeconds * rollPerSeconds
      pFile := some ⟨fileName env (env.time s.times),0⟩
      opened := s.opened ++ [fileName env (env.time s.times)] } := by
  rw [rollFile,if_pos h]

theorem rollFile_early {s : State} (h : env.time s.times ≤ s.tLastRoll) : rollFile env s = { s with times := s.times + 1 } := by
  rw [rollFile,if_neg h.not_gt]

variable (env)

/-- What a log that has rolled once knows of itself. -/
structure Tracked (w : Watched) : Prop where
  file : ∃ f, w.log.pFile = some f ∧ f.unWrittenBytes = w.bytes % 2 ^ 64
  rolled : 0 < w.log.tLastRoll
  period : w.log.tStartOfPeriod = w.log.tLastRoll.tdiv rollPerSeconds * rollPerSeconds
  clock : w.log.tLastRoll ≤ env.time w.log.times

/-- The append starts a new file. -/
def Starts (w : Watched) (pLogLine : List UInt8) : Prop :=
  Full env w pLogLine ∧ Late env w ∨ Checks env w pLogLine ∧ LaterPeriod env w

/-- The count of appends after an append. -/
def nextCnt (w : Watched) (pLogLine : List UInt8) : Int :=
  if Full env w pLogLine then w.log.nCnt else if checkTimeRoll < w.log.nCnt then 0 else w.log.nCnt + 1

/-- What an append does to the log, as far as rolling goes. -/
structure Appended (w : Watched) (pLogLine : List UInt8) (log : State) : Prop where
  tracked : Tracked env ⟨log,if w.log.opened.length < log.opened.length then 0 else w.bytes + pLogLine.length,0⟩
  starts : w.log.opened.length < log.opened.length ↔ Starts env w pLogLine
  consults : w.log.times < log.times ↔ Full env w pLogLine ∨ Checks env w pLogLine
  count : log.nCnt = nextCnt env w pLogLine

variable {env} {w : Watched}

/-- The line is in the file, and the rest of the append is to come. -/
theorem Tracked.append_eq (h : Tracked env w) (pLogLine : List UInt8) :
    ∃ s f, SameButWrites w.log s ∧ s.pFile = some f ∧ f.unWrittenBytes = (w.bytes + pLogLine.length) % 2 ^ 64 ∧
      append env w.log pLogLine = .ok (afterAppend env s f) := by
  obtain ⟨f,hfile,hbytes⟩ := h.file
  obtain ⟨s,hrun,hsame⟩ := @fileAppend_same env w.log f pLogLine
  let f' : File := { f with unWrittenBytes := (f.unWrittenBytes + pLogLine.length) % 2 ^ 64 }
  have hbytes' : f'.unWrittenBytes = (w.bytes + pLogLine.length) % 2 ^ 64 := by
    change (f.unWrittenBytes + pLogLine.length) % 2 ^ 64 = _
    rw [hbytes,Nat.mod_add_mod]
  refine ⟨{ s with pFile := some f' },f',?_,rfl,hbytes',?_⟩
  · exact ⟨hsame.nCnt,hsame.tStartOfPeriod,hsame.tLastRoll,hsame.times,hsame.opened⟩
  · simp only [append,hfile,hrun,ok_bind,f']

/-- A later period is a later start of a period. -/
theorem Tracked.laterPeriod_iff (h : Tracked env w) :
    (env.time w.log.times).tdiv rollPerSeconds * rollPerSeconds ≠ w.log.tStartOfPeriod ↔ LaterPeriod env w := by
  have hle : w.log.tLastRoll.tdiv rollPerSeconds ≤ (env.time w.log.times).tdiv rollPerSeconds := by
    rw [Int.tdiv_eq_ediv_of_nonneg h.rolled.le,Int.tdiv_eq_ediv_of_nonneg (h.rolled.le.trans h.clock)]
    exact Int.ediv_le_ediv (by decide) h.clock
  rw [h.period,LaterPeriod,rollPerSeconds]
  rw [rollPerSeconds] at hle
  omega

theorem Tracked.late (h : Tracked env w) (hlater : LaterPeriod env w) : Late env w := by
  refine lt_of_le_of_ne h.clock ?_
  intro heq
  rw [LaterPeriod,heq] at hlater
  exact lt_irrefl _ hlater

/-- The file was rolled at a reading that the append has taken. -/
theorem appended_new (h : Tracked env w) (hclock : Monotone env.time) {pLogLine : List UInt8} {log : State} {k : Nat}
    (hk : w.log.times ≤ k) (htimes : log.times = k + 1) (hlate : Late env w) (hroll : log.tLastRoll = env.time k)
    (hperiod : log.tStartOfPeriod = (env.time k).tdiv rollPerSeconds * rollPerSeconds)
    (hfile : ∃ strFileName, log.pFile = some ⟨strFileName,0⟩) (hopened : ∃ strFileName, log.opened = w.log.opened ++ [strFileName])
    (hstarts : Starts env w pLogLine) (hconsults : Full env w pLogLine ∨ Checks env w pLogLine)
    (hcount : log.nCnt = nextCnt env w pLogLine) : Appended env w pLogLine log := by
  obtain ⟨name,hopened⟩ := hopened
  obtain ⟨name',hfile⟩ := hfile
  have hmore : w.log.opened.length < log.opened.length := by
    rw [hopened,List.length_append,List.length_singleton]
    exact Nat.lt_succ_self _
  refine ⟨⟨⟨_,hfile,?_⟩,?_,?_,?_⟩,iff_of_true hmore hstarts,iff_of_true (by omega) hconsults,hcount⟩
  · rw [if_pos hmore]
    rfl
  · rw [hroll]
    exact h.rolled.trans (hlate.trans_le (hclock hk))
  · rw [hperiod,hroll]
  · rw [hroll,htimes]
    exact hclock (Nat.le_succ k)

/-- The file is the same. -/
theorem appended_same (h : Tracked env w) (hclock : Monotone env.time) {pLogLine : List UInt8} {log : State}
    (htimes : w.log.times ≤ log.times) (hroll : log.tLastRoll = w.log.tLastRoll)
    (hperiod : log.tStartOfPeriod = w.log.tStartOfPeriod)
    (hfile : ∃ f, log.pFile = some f ∧ f.unWrittenBytes = (w.bytes + pLogLine.length) % 2 ^ 64) (hopened : log.opened = w.log.opened)
    (hstarts : ¬ Starts env w pLogLine) (hconsults : w.log.times < log.times ↔ Full env w pLogLine ∨ Checks env w pLogLine)
    (hcount : log.nCnt = nextCnt env w pLogLine) : Appended env w pLogLine log := by
  have hsame : ¬ w.log.opened.length < log.opened.length := by
    rw [hopened]
    exact lt_irrefl _
  refine ⟨⟨?_,?_,?_,?_⟩,iff_of_false hsame hstarts,hconsults,hcount⟩
  · rwa [if_neg hsame]
  · rw [hroll]
    exact h.rolled
  · rw [hperiod,hroll]
    exact h.period
  · rw [hroll]
    exact h.clock.trans (hclock htimes)

theorem afterAppend_appended (h : Tracked env w) (hclock : Monotone env.time) {pLogLine : List UInt8} {s : State} {f : File}
    (hsame : SameButWrites w.log s) (hfile : s.pFile = some f) (hbytes : f.unWrittenBytes = (w.bytes + pLogLine.length) % 2 ^ 64) :
    Appended env w pLogLine (afterAppend env s f) := by
  obtain ⟨hcnt,hstart,hroll,htimes,hopened⟩ := hsame
  have htimes' : w.log.times ≤ s.times := htimes.ge
  have hlate : s.tLastRoll < env.time s.times ↔ Late env w := by rw [hroll,htimes,Late]
  have hconsulted : w.log.times < s.times + 1 := by omega
  by_cases hfull : Full env w pLogLine
  · have hcount : s.nCnt = nextCnt env w pLogLine := by rw [nextCnt,if_pos hfull,hcnt]
    rw [afterAppend,if_pos (by rw [hbytes]; exact hfull)]
    by_cases hl : Late env w
    · rw [rollFile_late (hlate.mpr hl)]
      exact appended_new h hclock htimes' rfl hl rfl rfl ⟨_,rfl⟩ ⟨_,congrArg (· ++ _) hopened⟩ (.inl ⟨hfull,hl⟩) (.inl hfull) hcount
    · rw [rollFile_early (not_lt.mp fun hl' => hl (hlate.mp hl'))]
      refine appended_same h hclock hconsulted.le hroll hstart ⟨f,hfile,hbytes⟩ hopened ?_ (iff_of_true hconsulted (.inl hfull)) hcount
      rintro (⟨-,hl'⟩ | ⟨⟨hnot,-⟩,-⟩)
      · exact hl hl'
      · exact hnot hfull
  · rw [afterAppend,if_neg (by rw [hbytes]; exact hfull),hcnt]
    by_cases hcheck : checkTimeRoll < w.log.nCnt
    · have hcount : 0 = nextCnt env w pLogLine := by rw [nextCnt,if_neg hfull,if_pos hcheck]
      have hchecks : Checks env w pLogLine := ⟨hfull,hcheck⟩
      have hperiod := h.laterPeriod_iff
      rw [← htimes,← hstart] at hperiod
      rw [if_pos hcheck,checkPeriod]
      by_cases hlater : LaterPeriod env w
      · have hl := h.late hlater
        have hlate' : s.tLastRoll < env.time (s.times + 1) := (hlate.mpr hl).trans_le (hclock (Nat.le_succ _))
        rw [if_pos (hperiod.mpr hlater),rollFile_late hlate']
        exact appended_new h hclock hconsulted.le rfl hl rfl rfl ⟨_,rfl⟩ ⟨_,congrArg (· ++ _) hopened⟩ (.inr ⟨hchecks,hlater⟩)
          (.inr hchecks) hcount
      · have hstarts : ¬ Starts env w pLogLine := by
          rintro (⟨hfull',-⟩ | ⟨-,hlater'⟩)
          · exact hfull hfull'
          · exact hlater hlater'
        have hconsults : w.log.times < s.times + 1 ↔ Full env w pLogLine ∨ Checks env w pLogLine :=
          iff_of_true hconsulted (.inr hchecks)
        rw [if_neg fun hp => hlater (hperiod.mp hp)]
        split
        · exact appended_same h hclock hconsulted.le hroll hstart ⟨f,hfile,hbytes⟩ hopened hstarts hconsults hcount
        · exact appended_same h hclock hconsulted.le hroll hstart ⟨f,hfile,hbytes⟩ hopened hstarts hconsults hcount
    · have hcount : w.log.nCnt + 1 = nextCnt env w pLogLine := by rw [nextCnt,if_neg hfull,if_neg hcheck]
      rw [if_neg hcheck]
      refine appended_same h hclock htimes' hroll hstart ⟨f,hfile,hbytes⟩ hopened ?_ (iff_of_false ?_ ?_) hcount
      · rintro (⟨hfull',-⟩ | ⟨⟨-,hcheck'⟩,-⟩)
        · exact hfull hfull'
        · exact hcheck hcheck'
      · exact htimes.le.not_gt
      · rintro (hfull' | ⟨-,hcheck'⟩)
        · exact hfull hfull'
        · exact hcheck hcheck'

theorem watch_ok (h : Tracked env w) (hclock : Monotone env.time) (pLogLine : List UInt8) :
    ∃ w', watch env w pLogLine = .ok w' ∧ Tracked env w' ∧ (w.log.opened.length < w'.log.opened.length ↔ Starts env w pLogLine) ∧
      w'.log.nCnt = nextCnt env w pLogLine ∧
      w'.quiet = if Exceeds env w pLogLine then w.quiet
        else if Full env w pLogLine ∨ Checks env w pLogLine then 0 else w.quiet + 1 := by
  obtain ⟨s,f,hsame,hfile,hbytes,happend⟩ := h.append_eq pLogLine
  obtain ⟨htracked,hstarts,hconsults,hcount⟩ := afterAppend_appended h hclock hsame hfile hbytes
  refine ⟨_,by rw [watch,happend,ok_bind],?_,hstarts,hcount,?_⟩
  · exact ⟨htracked.file,htracked.rolled,htracked.period,htracked.clock⟩
  · simp only [hconsults]
    rfl

/-! Runs. -/

/-- An append obeys the policy exactly if the size test and the window fit. -/
theorem obeys_iff (h : Tracked env w) (hquiet : w.quiet ≤ 1025) (hclock : Monotone env.time) (pLogLine : List UInt8) :
    (∃ w', watch env w pLogLine = .ok w' ∧ Obeys env w pLogLine w') ↔ SizeTestFits env w pLogLine ∧ WindowFits env w pLogLine := by
  obtain ⟨w',hstep,-,hstarts,-,hnext⟩ := watch_ok h hclock pLogLine
  have hrolls : (Starts env w pLogLine ↔ Late env w ∧ (Exceeds env w pLogLine ∨ Checks env w pLogLine ∧ LaterPeriod env w)) ↔
      SizeTestFits env w pLogLine := by
    rw [Starts,SizeTestFits]
    by_cases hcheck : Checks env w pLogLine ∧ LaterPeriod env w
    · exact iff_of_true (iff_of_true (.inr hcheck) ⟨h.late hcheck.2,.inr hcheck⟩) (.inr (.inr hcheck))
    · by_cases hlate : Late env w
      · simp only [hcheck,hlate,or_false,and_true,true_and,not_true_eq_false]
      · simp only [hcheck,hlate,and_false,false_and,or_false,not_false_eq_true,or_true]
  have hwindow : w'.quiet ≤ 1025 ↔ WindowFits env w pLogLine := by
    rw [hnext,WindowFits]
    split
    · rename_i hexceeds
      exact iff_of_true hquiet (.inl hexceeds)
    · rename_i hwithin
      split
      · rename_i hconsults
        exact iff_of_true (Nat.zero_le _) (.inr (hconsults.imp_right .inl))
      · rename_i hquiet
        obtain ⟨hfull,hchecks⟩ := not_or.mp hquiet
        simp only [hwithin,hfull,hchecks,false_or]
        omega
  rw [← hrolls,← hwindow,← hstarts]
  constructor
  · rintro ⟨w'',hstep',hobeys⟩
    cases hstep.symm.trans hstep'
    exact hobeys
  · exact fun hobeys => ⟨w',hstep,hobeys⟩

/-- While no file gets more bytes than a size_t counts, the clock is consulted in time. -/
theorem window_fits (hclock : Monotone env.time) (h : Tracked env w) (hquiet : (w.quiet : Int) ≤ w.log.nCnt)
    (hcnt : w.log.nCnt ≤ checkTimeRoll + 1) {lines : List (List UInt8)} (hfit : (rolling env).Along (BytesFit) w lines) :
    (rolling env).Along (WindowFits env) w lines := by
  induction lines generalizing w with
  | nil => trivial
  | cons line lines ih =>
    obtain ⟨w',hstep,htracked,-,hcount,hnext⟩ := watch_ok h hclock line
    obtain ⟨hbytes,hrest⟩ := (rolling env).along_cons hfit hstep
    have hfull : Exceeds env w line → Full env w line := by
      intro hexceeds
      rw [Full,Nat.mod_eq_of_lt hbytes]
      exact (Nat.mod_le _ _).trans_lt hexceeds
    have hstep' : (rolling env).step w line = .ok w' := hstep
    simp only [Machine.Along,hstep']
    rw [checkTimeRoll] at hcnt
    rw [nextCnt,checkTimeRoll] at hcount
    refine ⟨?_,ih htracked ?_ ?_ hrest⟩
    · by_contra hnot
      simp only [WindowFits,not_or,Checks,checkTimeRoll] at hnot
      obtain ⟨-,hfull,hcheck,hquiet'⟩ := hnot
      have hle : ¬ 1024 < w.log.nCnt := fun hlt => hcheck ⟨hfull,hlt⟩
      omega
    · by_cases hf : Full env w line
      · have hconsults : Full env w line ∨ Checks env w line := .inl hf
        rw [hcount,if_pos hf,hnext,if_pos hconsults]
        split
        · exact hquiet
        · exact (Int.natCast_nonneg _).trans hquiet
      · rw [hcount,if_neg hf,hnext,if_neg fun he => hf (hfull he)]
        by_cases hc : 1024 < w.log.nCnt
        · rw [if_pos hc,if_pos (.inr ⟨hf,hc⟩)]
          rfl
        · rw [if_neg hc,if_neg (not_or.mpr ⟨hf,fun hchecks => hc hchecks.2⟩)]
          omega
    · rw [hcount,checkTimeRoll]
      split
      · exact hcnt
      · split <;> omega

/-- A log that has rolled once obeys the policy all along exactly if the tests fit all along. -/
theorem run_obeys_iff (hclock : Monotone env.time) (h : Tracked env w) (hquiet : w.quiet ≤ 1025) (lines : List (List UInt8)) :
    (rolling env).Along (fun w line => ∃ w', watch env w line = .ok w' ∧ Obeys env w line w') w lines ↔
      (rolling env).Along (SizeTestFits env) w lines ∧ (rolling env).Along (WindowFits env) w lines := by
  induction lines generalizing w with
  | nil => exact iff_of_true trivial ⟨trivial,trivial⟩
  | cons line lines ih =>
    obtain ⟨w',hstep,htracked,-⟩ := watch_ok h hclock line
    have hobeys := obeys_iff h hquiet hclock line
    have hstep' : (rolling env).step w line = .ok w' := hstep
    simp only [Machine.Along,hstep']
    constructor
    · rintro ⟨hline,hrest⟩
      obtain ⟨hsize,hwindow⟩ := hobeys.mp hline
      obtain ⟨w'',hstep'',-,hquiet'⟩ := hline
      cases hstep.symm.trans hstep''
      obtain ⟨hsizes,hwindows⟩ := (ih htracked hquiet').mp hrest
      exact ⟨⟨hsize,hsizes⟩,hwindow,hwindows⟩
    · rintro ⟨⟨hsize,hsizes⟩,hwindow,hwindows⟩
      obtain ⟨w'',hstep'',hstarts,hquiet'⟩ := hobeys.mpr ⟨hsize,hwindow⟩
      cases hstep.symm.trans hstep''
      exact ⟨⟨w',hstep,hstarts,hquiet'⟩,(ih htracked hquiet').mpr ⟨hsizes,hwindows⟩⟩

/-- The constructor's own roll, at a positive reading. -/
theorem new_tracked (hclock : Monotone env.time) {s : State} (hnew : new env = .ok s) (hfirst : 0 < env.time 0) :
    Tracked env ⟨s,0,0⟩ ∧ s.nCnt = 0 := by
  obtain ⟨-,-,hnew⟩ := (bind_ok_iff _ _ _).mp hnew
  cases hnew
  have hlate : init.tLastRoll < env.time init.times := hfirst
  rw [rollFile_late hlate]
  exact ⟨⟨⟨_,rfl,rfl⟩,hfirst,rfl,hclock (Nat.zero_le _)⟩,rfl⟩

/-- Without it there is no file, and the first append fails. -/
theorem new_early {s : State} (hnew : new env = .ok s) (hfirst : env.time 0 ≤ 0) (pLogLine : List UInt8) :
    watch env ⟨s,0,0⟩ pLogLine = .error (.assertion "px != 0") := by
  obtain ⟨-,-,hnew⟩ := (bind_ok_iff _ _ _).mp hnew
  cases hnew
  have hearly : env.time init.times ≤ init.tLastRoll := hfirst
  rw [rollFile_early hearly]
  rfl

/-- For every roll size, every run of appends and every clock that does not step back: each
append succeeds and rolls by the policy exactly if the first reading is positive and the code's
tests of size and count fit all along; the one of the count always does while no file gets 2^64 bytes. -/
theorem rolls_by_policy_iff (hclock : Monotone env.time) {s : State} (hnew : new env = .ok s) (lines : List (List UInt8)) :
    ((rolling env).Along (fun w line => ∃ w', watch env w line = .ok w' ∧ Obeys env w line w') ⟨s,0,0⟩ lines ↔
        (lines ≠ [] → 0 < env.time 0) ∧
          (rolling env).Along (SizeTestFits env) ⟨s,0,0⟩ lines ∧ (rolling env).Along (WindowFits env) ⟨s,0,0⟩ lines) ∧
      ((rolling env).Along BytesFit ⟨s,0,0⟩ lines → (rolling env).Along (WindowFits env) ⟨s,0,0⟩ lines) := by
  by_cases hfirst : 0 < env.time 0
  · obtain ⟨htracked,hcnt⟩ := new_tracked hclock hnew hfirst
    refine ⟨?_,window_fits hclock htracked hcnt.ge (hcnt.le.trans (by decide))⟩
    rw [run_obeys_iff hclock htracked (Nat.zero_le _) lines]
    exact (and_iff_right fun _ => hfirst).symm
  · cases lines with
    | nil => exact ⟨iff_of_true trivial ⟨fun h => absurd rfl h,trivial,trivial⟩,id⟩
    | cons line lines =>
      have hfail := new_early hnew (not_lt.mp hfirst) line
      have hstep : (rolling env).step ⟨s,0,0⟩ line = .error (.assertion "px != 0") := hfail
      refine ⟨iff_of_false ?_ fun h => hfirst (h.1 (List.cons_ne_nil _ _)),?_⟩
      · rintro ⟨⟨w',hok,-⟩,-⟩
        cases hfail.symm.trans hok
      · intro _
        simp only [Machine.Along,hstep,and_true]
        exact .inr (.inr (.inr (Nat.zero_lt_succ 1024)))

theorem rolls_by_policy_iff_two : ∃ s, new firstSeconds = .ok s ∧
    (rolling firstSeconds).Along (fun w line => ∃ w', watch firstSeconds w line = .ok w' ∧ Obeys firstSeconds w line w')
      ⟨s,0,0⟩ [[104],[105,10],[106]] := by
  have hclock : Monotone firstSeconds.time := fun i j hij => add_le_add_left (Int.ofNat_le.mpr hij) 1
  have hnew : new firstSeconds = .ok (rollFile firstSeconds init) := rfl
  refine ⟨_,hnew,(rolls_by_policy_iff hclock hnew [[104],[105,10],[106]]).1.mpr ⟨fun _ => by decide,?_,?_⟩⟩
  · decide +kernel
  · decide +kernel

/-- A roll size of 4 GiB. -/
def fourGiB : Env := { firstSeconds with unRollSize := 2 ^ 32 }

/-- The first byte starts a new file, far within the roll size. -/
theorem fourGiB_rolls : ∃ s w', new fourGiB = .ok s ∧ watch fourGiB ⟨s,0,0⟩ [104] = .ok w' ∧ w'.log.opened.length = 2 ∧
    ¬ Obeys fourGiB ⟨s,0,0⟩ [104] w' ∧
    ¬ (rolling fourGiB).Along (fun w line => ∃ w', watch fourGiB w line = .ok w' ∧ Obeys fourGiB w line w') ⟨s,0,0⟩ [[104]] := by
  have hnew : new fourGiB = .ok (rollFile fourGiB init) := rfl
  cases hstep : watch fourGiB ⟨rollFile fourGiB init,0,0⟩ [104] with
  | error e =>
    have hvalue : (watch fourGiB ⟨rollFile fourGiB init,0,0⟩ [104]).isOk = true := by decide +kernel
    rw [hstep] at hvalue
    cases hvalue
  | ok w' =>
    have hvalue : (watch fourGiB ⟨rollFile fourGiB init,0,0⟩ [104]).toOption.map (fun w => w.log.opened.length) = some 2 := by
      decide +kernel
    rw [hstep] at hvalue
    have hlen : w'.log.opened.length = 2 := Option.some.inj hvalue
    have hnot : ¬ Obeys fourGiB ⟨rollFile fourGiB init,0,0⟩ [104] w' := by
      rintro ⟨hstarts,-⟩
      rw [hlen] at hstarts
      obtain ⟨-,hexceeds | ⟨-,hlater⟩⟩ := hstarts.mp (by decide +kernel)
      · exact absurd hexceeds (by decide +kernel)
      · exact absurd hlater (by decide +kernel)
    refine ⟨_,w',hnew,hstep,hlen,hnot,?_⟩
    rintro ⟨⟨w'',hstep',hobeys⟩,-⟩
    cases hstep.symm.trans hstep'
    exact hnot hobeys

end LinuxServer.Logging.LogFile
