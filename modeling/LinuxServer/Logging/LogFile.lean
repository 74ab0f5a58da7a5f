import LinuxServer.Lib.Chunks
import LinuxServer.Lib.Machine

/-! Rolling log files: where the lines go and how the files are named, for any
clock and any short writes. -/
namespace LinuxServer.Logging.LogFile
open LinuxServer.Lib

/-- The constructor's arguments, and what the process is told by the system: the readings of the
clock in order, the results of fwrite in order, and the text of a time. -/
structure Env where
  strBaseName : String
  /-- A size_t. -/
  unRollSize : Nat
  nFlushInterval : Int
  time : Nat → Int
  /-- How many of the bytes given to a call are written. -/
  fwrite : Nat → (n : Nat) → Fin (n + 1)
  /-- gmtime_r and strftime with ".%Y%m%d-%H%M%S". -/
  timeBuff : Int → String
  pid : Int

structure File where
  strFileName : String
  unWrittenBytes : Nat
  deriving DecidableEq,Repr

structure State where
  nCnt : Int
  tStartOfPeriod : Int
  tLastRoll : Int
  tLaseFlush : Int
  pFile : Option File
  /-- Readings of the clock and calls of fwrite so far. -/
  times : Nat
  writes : Nat
  /-- What was written under each name, and the names opened in order. -/
  disk : String → List UInt8
  opened : List String

def checkTimeRoll : Int := 1024
def rollPerSeconds : Int := 60 * 60 * 24

def init : State := ⟨0,0,0,0,none,0,0,fun _ => [],[]⟩

variable (env : Env)

/-- The member is an unsigned int. -/
def unRollSize : Nat := env.unRollSize % 2 ^ 32

def write (s : State) (strFileName : String) (data : List UInt8) : State × Nat :=
  let x := (env.fwrite s.writes data.length).val
  ({ s with
    writes := s.writes + 1
    disk := Function.update s.disk strFileName (s.disk strFileName ++ data.take x) },x)

/-- The rest of a line, until nothing remains or nothing is written. -/
def writeRest (strFileName : String) : Nat → State → List UInt8 → Except Halt State
  | 0, s, rest => do
    ensure .outOfFuel (rest.length = 0)
    .ok s
  | fuel+1, s, rest =>
    if 0 < rest.length then
      let (s',x) := write env s strFileName rest
      if x = 0 then .ok s' else writeRest strFileName fuel s' (rest.drop x)
    else .ok s

/-- File::Append, with at most one more call of write for each byte of the line. -/
def fileAppend (s : State) (f : File) (pLogLine : List UInt8) : Except Halt (State × File) := do
  let (s₁,n) := write env s f.strFileName pLogLine
  let s₂ ← writeRest env f.strFileName pLogLine.length s₁ (pLogLine.drop n)
  .ok (s₂,{ f with unWrittenBytes := (f.unWrittenBytes + pLogLine.length) % 2 ^ 64 })

def fileName (tNow : Int) : String :=
  env.strBaseName ++ env.timeBuff tNow ++ ("." ++ toString env.pid ++ ".log")

/-- A file is opened at most once in a second, and not when the clock steps back. -/
def rollFile (s : State) : State :=
  let tNow := env.time s.times
  let strFileName := fileName env tNow
  let tStart := tNow.tdiv rollPerSeconds * rollPerSeconds
  if s.tLastRoll < tNow then
    { s with
      times := s.times + 1
      tLastRoll := tNow
      tLaseFlush := tNow
      tStartOfPeriod := tStart
      pFile := some ⟨strFileName,0⟩
      opened := s.opened ++ [strFileName] }
  else { s with times := s.times + 1 }

/-- The check of the period, every so many lines. Flushing leaves what was written. -/
def checkPeriod (s : State) : State :=
  let tNow := env.time s.times
  let s₁ := { s with nCnt := 0, times := s.times + 1 }
  let tThisPeriod := tNow.tdiv rollPerSeconds * rollPerSeconds
  if tThisPeriod ≠ s₁.tStartOfPeriod then rollFile env s₁
  else if env.nFlushInterval < tNow - s₁.tLaseFlush then { s₁ with tLaseFlush := tNow }
  else s₁

def afterAppend (s : State) (f : File) : State :=
  if unRollSize env < f.unWrittenBytes then rollFile env s
  else if checkTimeRoll < s.nCnt then checkPeriod env s
  else { s with nCnt := s.nCnt + 1 }

/-- LogFile::Append. -/
def append (s : State) (pLogLine : List UInt8) : Except Halt State :=
  match s.pFile with
  | some f => do
    let (s₁,f₁) ← fileAppend env s f pLogLine
    .ok (afterAppend env { s₁ with pFile := some f₁ } f₁)
  | none => .error (.assertion "px != 0")

/-- The constructor. -/
def new : Except Halt State := do
  ensure (.assertion "strBaseName.find(\"/\") == string::npos") ('/' ∉ env.strBaseName.toList)
  .ok (rollFile env init)

def logAll (lines : List (List UInt8)) : Except Halt State := do
  let s ← new env
  lines.foldlM (append env) s

/-! A line goes to the current file whole, however short the writes. -/

variable {env}

/-- The same state with more in one file, after some calls of fwrite. -/
def Wrote (s s' : State) (strFileName : String) (data : List UInt8) : Prop :=
  ∃ calls, s' = { s with
    writes := s.writes + calls
    disk := Function.update s.disk strFileName (s.disk strFileName ++ data) }

private theorem wrote_nothing (s : State) (strFileName : String) : Wrote s s strFileName [] := by
  refine ⟨0,?_⟩
  rw [List.append_nil,Function.update_eq_self,Nat.add_zero]

private theorem Wrote.append {s s₁ s₂ : State} {strFileName : String} {data more : List UInt8}
    (h : Wrote s s₁ strFileName data) (h' : Wrote s₁ s₂ strFileName more) : Wrote s s₂ strFileName (data ++ more) := by
  obtain ⟨calls,rfl⟩ := h
  obtain ⟨calls',rfl⟩ := h'
  refine ⟨calls + calls',?_⟩
  simp only [Function.update_self,Function.update_idem,List.append_assoc,Nat.add_assoc]

private theorem write_wrote (s : State) (strFileName : String) (data : List UInt8) :
    Wrote s (write env s strFileName data).1 strFileName (data.take (write env s strFileName data).2) := ⟨1,rfl⟩

private theorem writeRest_ok (hshort : ∀ k n, 0 < n → 0 < (env.fwrite k n).val) (strFileName : String)
    {fuel : Nat} (s : State) (rest : List UInt8) (hfuel : rest.length ≤ fuel) :
    ∃ s', writeRest env strFileName fuel s rest = .ok s' ∧ Wrote s s' strFileName rest := by
  induction fuel generalizing s rest with
  | zero =>
    obtain rfl := List.length_eq_zero_iff.mp (Nat.le_zero.mp hfuel)
    exact ⟨s,rfl,wrote_nothing s strFileName⟩
  | succ fuel ih =>
    by_cases hpos : 0 < rest.length
    · have hwritten : 0 < (write env s strFileName rest).2 := hshort s.writes _ hpos
      have hsome : ¬ (write env s strFileName rest).2 = 0 := by omega
      have hless : (rest.drop (write env s strFileName rest).2).length ≤ fuel := by
        rw [List.length_drop]
        omega
      obtain ⟨s',hrun,hwrote⟩ := ih (write env s strFileName rest).1 _ hless
      refine ⟨s',?_,?_⟩
      · rw [writeRest,if_pos hpos]
        simp only [hsome,if_false]
        exact hrun
      · have h := (write_wrote s strFileName rest).append hwrote
        rwa [List.take_append_drop] at h
    · obtain rfl := List.length_eq_zero_iff.mp (Nat.eq_zero_of_not_pos hpos)
      exact ⟨s,rfl,wrote_nothing s strFileName⟩

/-- File::Append writes the line to its end. -/
theorem fileAppend_ok (hshort : ∀ k n, 0 < n → 0 < (env.fwrite k n).val) (s : State) (f : File) (pLogLine : List UInt8) :
    ∃ s' f', fileAppend env s f pLogLine = .ok (s',f') ∧ f'.strFileName = f.strFileName ∧
      Wrote s s' f.strFileName pLogLine := by
  have hless : (pLogLine.drop (write env s f.strFileName pLogLine).2).length ≤ pLogLine.length := by
    rw [List.length_drop]
    omega
  obtain ⟨s',hrun,hwrote⟩ := writeRest_ok hshort f.strFileName (write env s f.strFileName pLogLine).1 _ hless
  have h := (write_wrote s f.strFileName pLogLine).append hwrote
  rw [List.take_append_drop] at h
  have hok : fileAppend env s f pLogLine =
      .ok (s',{ f with unWrittenBytes := (f.unWrittenBytes + pLogLine.length) % 2 ^ 64 }) := by
    simp only [fileAppend,hrun,ok_bind]
  exact ⟨s',_,hok,rfl,h⟩

/-! The files opened so far hold the lines so far. -/

variable (env)

structure Partition (lines : List (List UInt8)) (s : State) : Prop where
  /-- One reading of the clock for each file, each later than those before. -/
  rolls : ∃ readings : List Int, s.opened = readings.map (fileName env) ∧ readings.Pairwise (· < ·) ∧
    ∀ t ∈ readings, t ≤ s.tLastRoll ∧ ∃ k < s.times, env.time k = t
  current : ∃ f before, s.pFile = some f ∧ s.opened = before ++ [f.strFileName]
  fresh : ∀ name ∉ s.opened, s.disk name = []
  contents : s.opened.Nodup → Chunked (s.opened.map s.disk) lines

variable {env} {lines : List (List UInt8)} {s s' : State}

/-- Taking readings and counting lines changes nothing in the files. -/
private theorem Partition.tick (h : Partition env lines s) (hopened : s'.opened = s.opened) (hdisk : s'.disk = s.disk)
    (hfile : s'.pFile = s.pFile) (hroll : s'.tLastRoll = s.tLastRoll) (htimes : s.times ≤ s'.times) :
    Partition env lines s' := by
  obtain ⟨⟨readings,hreadings,hlater,hknown⟩,hcurrent,hfresh,hcontents⟩ := h
  refine ⟨⟨readings,hopened.trans hreadings,hlater,?_⟩,?_,?_,?_⟩
  · intro t ht
    obtain ⟨hle,k,hk,htime⟩ := hknown t ht
    exact ⟨by rw [hroll]; exact hle,k,by omega,htime⟩
  · rwa [hfile,hopened]
  · rwa [hopened,hdisk]
  · rwa [hopened,hdisk]

private theorem Partition.roll (h : Partition env lines s) : Partition env lines (rollFile env s) := by
  simp only [rollFile]
  split
  · rename_i hlate
    obtain ⟨⟨readings,hreadings,hlater,hknown⟩,hcurrent,hfresh,hcontents⟩ := h
    refine ⟨⟨readings ++ [env.time s.times],?_,?_,?_⟩,⟨_,s.opened,rfl,rfl⟩,?_,?_⟩
    · rw [List.map_append,hreadings,List.map_singleton]
    · rw [List.pairwise_append]
      refine ⟨hlater,List.pairwise_singleton ..,?_⟩
      intro t ht t' ht'
      rw [List.mem_singleton.mp ht']
      exact (hknown t ht).1.trans_lt hlate
    · intro t ht
      rcases List.mem_append.mp ht with ht | ht
      · obtain ⟨hle,k,hk,htime⟩ := hknown t ht
        exact ⟨hle.trans hlate.le,k,Nat.lt_succ_of_lt hk,htime⟩
      · rw [List.mem_singleton.mp ht]
        exact ⟨le_rfl,s.times,Nat.lt_succ_self _,rfl⟩
    · intro name hname
      exact hfresh name fun hmem => hname (List.mem_append_left _ hmem)
    · intro hnodup
      obtain ⟨hbefore,-,hnew⟩ := List.nodup_append.mp hnodup
      have hempty : s.disk (fileName env (env.time s.times)) = [] :=
        hfresh _ fun hmem => hnew _ hmem _ (List.mem_singleton_self _) rfl
      rw [List.map_append,List.map_singleton,hempty]
      exact (hcontents hbefore).snoc_nil
  · exact h.tick rfl rfl rfl rfl (Nat.le_succ _)

private theorem Partition.checkPeriod (h : Partition env lines s) : Partition env lines (checkPeriod env s) := by
  have htick : Partition env lines { s with nCnt := 0, times := s.times + 1 } := h.tick rfl rfl rfl rfl (Nat.le_succ _)
  simp only [LogFile.checkPeriod]
  split
  · exact htick.roll
  · split
    · exact h.tick rfl rfl rfl rfl (Nat.le_succ _)
    · exact htick

private theorem Partition.afterAppend (h : Partition env lines s) (f : File) :
    Partition env lines (afterAppend env s f) := by
  simp only [LogFile.afterAppend]
  split
  · exact h.roll
  · split
    · exact h.checkPeriod
    · exact h.tick rfl rfl rfl rfl le_rfl

/-- The line that was written is at the end of the last file. -/
private theorem Partition.line (h : Partition env lines s) {f f' : File} (hfile : s.pFile = some f)
    (hname : f'.strFileName = f.strFileName) {pLogLine : List UInt8} (hwrote : Wrote s s' f.strFileName pLogLine) :
    Partition env (lines ++ [pLogLine]) { s' with pFile := some f' } := by
  obtain ⟨hrolls,⟨g,before,hg,hopened⟩,hfresh,hcontents⟩ := h
  obtain rfl := Option.some.inj (hfile.symm.trans hg)
  obtain ⟨calls,rfl⟩ := hwrote
  refine ⟨hrolls,⟨f',before,rfl,by rw [hname]; exact hopened⟩,?_,?_⟩
  · intro name hnot
    have hother : name ≠ f.strFileName := by
      intro heq
      rw [heq] at hnot
      exact hnot (by rw [hopened]; exact List.mem_append_right _ (List.mem_singleton_self _))
    exact (Function.update_of_ne hother _ _).trans (hfresh name hnot)
  · intro hnodup
    have hchunked := hcontents hnodup
    simp only [hopened] at hnodup hchunked ⊢
    have hbefore : before.map (Function.update s.disk f.strFileName (s.disk f.strFileName ++ pLogLine)) =
        before.map s.disk := by
      refine List.map_congr_left fun name hmem => Function.update_of_ne ?_ _ _
      exact (List.nodup_append.mp hnodup).2.2 _ hmem _ (List.mem_singleton_self _)
    rw [List.map_append,List.map_singleton] at hchunked
    rw [List.map_append,List.map_singleton,hbefore,Function.update_self]
    exact hchunked.snoc_piece pLogLine

theorem Partition.append (hshort : ∀ k n, 0 < n → 0 < (env.fwrite k n).val) (h : Partition env lines s)
    (pLogLine : List UInt8) : ∃ s', append env s pLogLine = .ok s' ∧ Partition env (lines ++ [pLogLine]) s' := by
  obtain ⟨f,-,hfile,-⟩ := h.current
  obtain ⟨s',f',hrun,hname,hwrote⟩ := fileAppend_ok hshort s f pLogLine
  refine ⟨_,?_,(h.line hfile hname hwrote).afterAppend f'⟩
  simp only [LogFile.append,hfile,hrun,ok_bind]

/-- The constructor opens the first file. -/
theorem partition_new (hbase : '/' ∉ env.strBaseName.toList) (hfirst : 0 < env.time 0) :
    ∃ s, new env = .ok s ∧ Partition env [] s := by
  refine ⟨rollFile env init,by rw [new,ensure_of _ hbase,ok_bind],?_⟩
  have hroll : init.tLastRoll < env.time init.times := hfirst
  simp only [rollFile,if_pos hroll]
  refine ⟨⟨[env.time 0],rfl,List.pairwise_singleton ..,?_⟩,⟨_,[],rfl,rfl⟩,fun _ _ => rfl,fun _ => Chunked.nil.snoc_nil⟩
  intro t ht
  rw [List.mem_singleton.mp ht]
  exact ⟨le_rfl,0,Nat.one_pos,rfl⟩

theorem partition_run (hshort : ∀ k n, 0 < n → 0 < (env.fwrite k n).val) (h : Partition env lines s)
    (more : List (List UInt8)) : ∃ s', more.foldlM (append env) s = .ok s' ∧ Partition env (lines ++ more) s' := by
  induction more generalizing lines s with
  | nil => exact ⟨s,rfl,by rwa [List.append_nil]⟩
  | cons line more ih =>
    obtain ⟨s₁,hstep,h₁⟩ := h.append hshort line
    obtain ⟨s',hrun,h'⟩ := ih h₁
    refine ⟨s',?_,by rwa [List.append_assoc] at h'⟩
    rw [List.foldlM_cons,hstep]
    exact hrun

/-- Later readings give other names. -/
private theorem Partition.nodup (h : Partition env lines s)
    (hformat : ∀ i < s.times, ∀ j < s.times, env.timeBuff (env.time i) = env.timeBuff (env.time j) → env.time i = env.time j) :
    s.opened.Nodup := by
  obtain ⟨readings,hopened,hlater,hknown⟩ := h.rolls
  rw [hopened,List.nodup_map_iff_inj_on (hlater.imp fun hlt => hlt.ne)]
  intro t ht t' ht' hname
  obtain ⟨-,i,hi,rfl⟩ := hknown t ht
  obtain ⟨-,j,hj,rfl⟩ := hknown t' ht'
  simp only [fileName,String.append_left_inj,String.append_right_inj] at hname
  exact hformat i hi j hj hname

/-- For every run of appends, every clock whose first reading is positive and every pattern
of short writes: the files opened have different names, and together hold the lines in
order, each line whole. -/
theorem files_partition_lines (hbase : '/' ∉ env.strBaseName.toList) (hfirst : 0 < env.time 0)
    (hshort : ∀ k n, 0 < n → 0 < (env.fwrite k n).val) (lines : List (List UInt8)) :
    ∃ s, logAll env lines = .ok s ∧
      ((∀ i < s.times, ∀ j < s.times, env.timeBuff (env.time i) = env.timeBuff (env.time j) → env.time i = env.time j) →
        s.opened.Nodup ∧ (s.opened.map s.disk).flatten = lines.flatten ∧ Chunked (s.opened.map s.disk) lines) := by
  obtain ⟨s₀,hnew,h₀⟩ := partition_new hbase hfirst
  obtain ⟨s,hrun,h⟩ := partition_run hshort h₀ lines
  refine ⟨s,by rw [logAll,hnew,ok_bind,hrun],fun hformat => ?_⟩
  have hnodup := h.nodup hformat
  have hchunked := h.contents hnodup
  exact ⟨hnodup,hchunked.flatten_eq,hchunked⟩

/-- The first seconds of the epoch, and writes of one byte. -/
def firstSeconds : Env where
  strBaseName := "test_log"
  unRollSize := 1
  nFlushInterval := 3
  time k := k + 1
  fwrite _ n := ⟨min 1 n,Nat.lt_succ_of_le (min_le_right 1 n)⟩
  timeBuff t := ".19700101-00000" ++ toString t
  pid := 1

/-- Three lines of which the second fills the first file. -/
theorem files_partition_lines_two :
    ∃ s, logAll firstSeconds [[104],[105,10],[106]] = .ok s ∧ s.opened.Nodup ∧ s.opened.length = 2 ∧
      (s.opened.map s.disk).flatten = [104,105,10,106] := by
  obtain ⟨s,hrun,hparts⟩ := @files_partition_lines firstSeconds (by decide) (by decide)
    (fun _ n hn => Nat.lt_min.mpr ⟨Nat.one_pos,hn⟩) [[104],[105,10],[106]]
  have hcounts : ((logAll firstSeconds [[104],[105,10],[106]]).toOption.map fun s => (s.times,s.opened.length)) =
      some (2,2) := by decide +kernel
  rw [hrun] at hcounts
  obtain ⟨htimes,hlength⟩ := Prod.mk.inj (Option.some.inj hcounts)
  have hformat : ∀ i < s.times, ∀ j < s.times, firstSeconds.timeBuff (firstSeconds.time i) =
      firstSeconds.timeBuff (firstSeconds.time j) → firstSeconds.time i = firstSeconds.time j := by
    rw [htimes]
    decide +kernel
  obtain ⟨hnodup,hflat,-⟩ := hparts hformat
  exact ⟨s,hrun,hnodup,hlength,hflat⟩

end LinuxServer.Logging.LogFile
