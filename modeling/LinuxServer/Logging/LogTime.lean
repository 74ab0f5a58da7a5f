import LinuxServer.Lib.Calendar
import LinuxServer.Logging.LogInsertion

/-! The time in front of a log record. A thread keeps the text of the last second it
formatted, and takes it again while the second is the same. -/
namespace LinuxServer.Logging.LogTime
open LinuxServer.Lib LogStream

def microSecondPerSecond : Int := 1000 * 1000

structure Tm where
  tm_year : Int
  tm_mon : Int
  tm_mday : Int
  tm_hour : Int
  tm_min : Int
  tm_sec : Int

def gmtime_r (seconds : Int) : Tm :=
  let date := Calendar.dateOf (seconds / 86400)
  let second := seconds % 86400
  ⟨date.year - 1900,date.month,date.day,second / 3600,second / 60 % 60,second % 60⟩

/-- "%4d%02d%02d %02d:%02d:%02d" of the fields. -/
def timeText (tm : Tm) : List Char :=
  blankPadded 4 (tm.tm_year + 1900) ++ zeroPadded 2 (tm.tm_mon + 1) ++ zeroPadded 2 tm.tm_mday ++ [' '] ++
    zeroPadded 2 tm.tm_hour ++ [':'] ++ zeroPadded 2 tm.tm_min ++ [':'] ++ zeroPadded 2 tm.tm_sec

/-- ".%06dZ ". -/
def microText (microSeconds : Int) : List Char := ['.'] ++ zeroPadded 6 microSeconds ++ ['Z',' ']

structure Fmt where
  pStrBuffer : List Char
  nLength : Nat

/-- The constructor, of what its format makes of its value; the buffer is not initialised. -/
def Fmt.new (pStrBuffer text : List Char) : Except Halt Fmt := do
  let (pStrBuffer,nLength) ← snprintf pStrBuffer 32 text
  ensure (.assertion "static_cast<size_t>(m_nLength) < sizeof(m_pStrBuffer)") (nLength < 32)
  .ok ⟨pStrBuffer,nLength⟩

/-- The variables of a thread, zero at first. -/
structure Locals where
  t_time : List Char
  t_lastSecond : Int
  deriving DecidableEq

def Locals.initial : Locals := ⟨List.replicate 32 terminator,0⟩

variable (format : Float → CString)

/-- The text of the second is formatted again if it is not that of the last record. -/
def updateTime (l : Locals) (seconds : Int) : Except Halt Locals :=
  if seconds ≠ l.t_lastSecond then do
    let (t_time,len) ← snprintf l.t_time 32 (timeText (gmtime_r seconds))
    ensure (.assertion "len == 17") (len = 17)
    .ok ⟨t_time,seconds⟩
  else .ok l

/-- With the memory that the local Fmt gets. -/
def formatTime (l : Locals) (microSecondsSinceEpoch : Int) (pStrBuffer : List Char) (stream : FixedBuffer) :
    Except Halt (Locals × FixedBuffer) := do
  let seconds := microSecondsSinceEpoch.tdiv microSecondPerSecond
  let microSeconds := microSecondsSinceEpoch.tmod microSecondPerSecond
  let l ← updateTime l seconds
  let us ← Fmt.new pStrBuffer (microText microSeconds)
  ensure (.assertion "us.GetLength() == 9") (us.nLength = 9)
  let time ← T.new l.t_time 17
  let stream ← insertItem format stream (.sized time)
  let micros ← T.new us.pStrBuffer 9
  let stream ← insertItem format stream (.sized micros)
  .ok (l,stream)

/-- A thread, and the texts in front of its records so far. -/
structure State where
  locals : Locals
  emitted : List (List Char)
  deriving DecidableEq

/-- A record: its time, the memory of FormatTime, and the new stream it is written to. -/
structure Record where
  timeStamp : Int
  pStrBuffer : List Char
  stream : FixedBuffer

def step (s : State) (r : Record) : Except Halt State := do
  let (l,stream) ← formatTime format s.locals r.timeStamp r.pStrBuffer r.stream
  .ok ⟨l,s.emitted ++ [stream.asString]⟩

def machine : Machine State Record Halt := ⟨fun s => s = ⟨.initial,[]⟩,step format⟩

/-- What belongs in front of a record: its own second, and its own microseconds. -/
def rendering (timeStamp : Int) : List Char :=
  timeText (gmtime_r (timeStamp / microSecondPerSecond)) ++ microText (timeStamp % microSecondPerSecond)

/-- The time is not before the epoch, and of a year that has four digits. -/
structure Record.Valid (r : Record) : Prop where
  nonneg : 0 ≤ r.timeStamp
  year : (gmtime_r (r.timeStamp / microSecondPerSecond)).tm_year + 1900 ≤ 9999
  room : r.pStrBuffer.length = 32
  init : (LogStream.machine format).Init r.stream

/-! The texts. -/

theorem mem_timeText {tm : Tm} {c : Char} (h : c ∈ timeText tm) : FieldChar c ∨ c = ':' := by
  simp only [timeText,List.mem_append,List.mem_singleton] at h
  rcases h with (((((((h | h) | h) | h) | h) | h) | h) | h) | h
  · exact .inl (fieldChar_blankPadded h)
  · exact .inl (fieldChar_zeroPadded h)
  · exact .inl (fieldChar_zeroPadded h)
  · exact .inl (.inl h)
  · exact .inl (fieldChar_zeroPadded h)
  · exact .inr h
  · exact .inl (fieldChar_zeroPadded h)
  · exact .inr h
  · exact .inl (fieldChar_zeroPadded h)

theorem mem_microText {microSeconds : Int} {c : Char} (h : c ∈ microText microSeconds) :
    FieldChar c ∨ c = '.' ∨ c = 'Z' := by
  simp only [microText,List.mem_append,List.mem_cons,List.not_mem_nil,or_false] at h
  rcases h with (h | h) | h | h
  · exact .inr (.inl h)
  · exact .inl (fieldChar_zeroPadded h)
  · exact .inr (.inr h)
  · exact .inl (.inl h)

theorem terminator_notMem_timeText (tm : Tm) : terminator ∉ timeText tm := by
  intro h
  rcases mem_timeText h with hfield | hcolon
  · exact absurd hfield (by decide)
  · exact absurd hcolon (by decide)

theorem terminator_notMem_microText (microSeconds : Int) : terminator ∉ microText microSeconds := by
  intro h
  rcases mem_microText h with hfield | hdot | hzone
  · exact absurd hfield (by decide)
  · exact absurd hdot (by decide)
  · exact absurd hzone (by decide)

def timeString (tm : Tm) : CString := ⟨timeText tm,terminator_notMem_timeText tm⟩
def microString (microSeconds : Int) : CString := ⟨microText microSeconds,terminator_notMem_microText microSeconds⟩

/-- The text of a second has 17 characters while its year has four. -/
theorem timeString_strlen {seconds : Int} (h0 : 0 ≤ seconds) (hyear : (gmtime_r seconds).tm_year + 1900 ≤ 9999) :
    (timeString (gmtime_r seconds)).strlen = 17 := by
  obtain ⟨hmonth,hday,hday'⟩ := Calendar.dateOf_fields (seconds / 86400)
  have hle := Calendar.le_year (seconds / 86400) (Int.ediv_nonneg h0 (by decide))
  have hsecond : 0 ≤ seconds % 86400 ∧ seconds % 86400 < 86400 := by omega
  change (timeText (gmtime_r seconds)).length = 17
  simp only [gmtime_r] at hyear ⊢
  simp only [timeText,List.length_append,List.length_singleton]
  rw [length_blankPadded (by omega) (by decide) (by omega),length_zeroPadded (by omega) (by decide) (by omega),
    length_zeroPadded (by omega) (by decide) (by omega),length_zeroPadded (by omega) (by decide) (by omega),
    length_zeroPadded (by omega) (by decide) (by omega),length_zeroPadded (by omega) (by decide) (by omega)]

theorem microString_strlen {microSeconds : Int} (h0 : 0 ≤ microSeconds) (h : microSeconds < microSecondPerSecond) :
    (microString microSeconds).strlen = 9 := by
  change (microText microSeconds).length = 9
  rw [microSecondPerSecond] at h
  simp only [microText,List.length_append,List.length_cons,List.length_nil]
  rw [length_zeroPadded h0 (by decide) (by omega)]

/-! One record. -/

variable {format}

/-- The text that the thread keeps is that of its last second. -/
structure Cached (l : Locals) : Prop where
  room : l.t_time.length = 32
  text : CString.ofMemory l.t_time = .ok (timeString (gmtime_r l.t_lastSecond))

/-- After the update the thread has the text of the record's own second. -/
theorem updateTime_ok {l : Locals} {seconds : Int} (hroom : l.t_time.length = 32) (h : seconds ≠ l.t_lastSecond ∨ Cached l)
    (hlen : (timeString (gmtime_r seconds)).strlen = 17) :
    ∃ l', updateTime l seconds = .ok l' ∧ Cached l' ∧ l'.t_lastSecond = seconds := by
  by_cases hsame : seconds = l.t_lastSecond
  · exact ⟨l,by rw [updateTime,if_neg (not_not.mpr hsame)],h.resolve_left (not_not.mpr hsame),hsame.symm⟩
  · obtain ⟨mem,hprint,hmem,htext⟩ := @ofMemory_snprintf_whole l.t_time 32 (timeString (gmtime_r seconds))
      (by rw [hlen]; decide) hroom.ge
    refine ⟨⟨mem,seconds⟩,?_,⟨hmem.trans hroom,htext⟩,rfl⟩
    change snprintf l.t_time 32 (timeText (gmtime_r seconds)) = _ at hprint
    simp only [updateTime,if_pos hsame,hprint,ok_bind,ensure_of _ hlen]

theorem fmt_ok {pStrBuffer : List Char} (hroom : pStrBuffer.length = 32) {microSeconds : Int} (h0 : 0 ≤ microSeconds)
    (h : microSeconds < microSecondPerSecond) :
    ∃ us, Fmt.new pStrBuffer (microText microSeconds) = .ok us ∧ us.nLength = 9 ∧
      CString.ofMemory us.pStrBuffer = .ok (microString microSeconds) := by
  have hlen := microString_strlen h0 h
  obtain ⟨mem,hprint,-,hmem⟩ := @ofMemory_snprintf_whole pStrBuffer 32 (microString microSeconds)
    (by rw [hlen]; decide) hroom.ge
  rw [hlen] at hprint
  change snprintf pStrBuffer 32 (microText microSeconds) = _ at hprint
  refine ⟨⟨mem,9⟩,?_,rfl,hmem⟩
  simp only [Fmt.new,hprint,ok_bind,ensure_of _ (show 9 < 32 by decide)]

/-- A T goes behind what is in the stream, as long as there is room. -/
theorem insert_sized {b : FixedBuffer} (h : b.WF) {val : T} (hroom : b.cur + (val.pStr.strlen + 1) ≤ b.data.length)
    (hsmall : val.pStr.strlen < 2 ^ 31) :
    ∃ b', insertItem format b (.sized val) = .ok b' ∧ b.Grown b' val.pStr.chars := by
  obtain ⟨pStr,-,rfl⟩ := val
  have hfits : b.cur + (pStr.chars.length + 1) ≤ b.data.length := hroom
  have hgrows := FixedBuffer.append_string h pStr.chars hsmall
  rw [if_pos hfits] at hgrows
  exact hgrows

/-- The two texts at the front of a new stream. -/
theorem insert_texts {b : FixedBuffer} (hinit : (LogStream.machine format).Init b) {time micros : T}
    (htime : time.pStr.strlen = 17) (hmicros : micros.pStr.strlen = 9) :
    ∃ b₁ b₂, insertItem format b (.sized time) = .ok b₁ ∧ insertItem format b₁ (.sized micros) = .ok b₂ ∧
      b₂.asString = time.pStr.chars ++ micros.pStr.chars := by
  obtain ⟨hlength,hcur⟩ := hinit
  rw [smallBuffer] at hlength
  have hwf : b.WF := by
    rw [FixedBuffer.WF,hcur]
    exact Nat.zero_le _
  obtain ⟨b₁,he₁,hg₁⟩ := @insert_sized format b hwf time (by omega) (by omega)
  have hcur₁ : b₁.cur = 17 := by
    rw [hg₁.cur,hcur,Nat.zero_add]
    exact htime
  have hlength₁ := hg₁.length.trans hlength
  obtain ⟨b₂,he₂,hg₂⟩ := @insert_sized format b₁ hg₁.wf micros (by omega) (by omega)
  refine ⟨b₁,b₂,he₁,he₂,?_⟩
  rw [hg₂.text,hg₁.text,FixedBuffer.asString,hcur,List.take_zero,List.nil_append]

/-- A record in a second that is new to the thread, or that it has the text of. -/
theorem formatTime_ok {l : Locals} {r : Record} (hv : r.Valid format) (hroom : l.t_time.length = 32)
    (h : r.timeStamp.tdiv microSecondPerSecond ≠ l.t_lastSecond ∨ Cached l) :
    ∃ l' stream, formatTime format l r.timeStamp r.pStrBuffer r.stream = .ok (l',stream) ∧ Cached l' ∧
      stream.asString = rendering r.timeStamp := by
  obtain ⟨h0,hyear,hbuffer,hinit⟩ := hv
  have hdiv : r.timeStamp.tdiv microSecondPerSecond = r.timeStamp / microSecondPerSecond := Int.tdiv_eq_ediv_of_nonneg h0
  have hmod : r.timeStamp.tmod microSecondPerSecond = r.timeStamp % microSecondPerSecond := Int.tmod_eq_emod_of_nonneg h0
  have hmod0 : 0 ≤ r.timeStamp % microSecondPerSecond := Int.emod_nonneg _ (by decide)
  have hmodlt : r.timeStamp % microSecondPerSecond < microSecondPerSecond := Int.emod_lt_of_pos _ (by decide)
  have hsecond := timeString_strlen (Int.ediv_nonneg h0 (by decide)) hyear
  obtain ⟨l',hupdate,hcached,hlast⟩ := updateTime_ok hroom h (by rw [hdiv]; exact hsecond)
  obtain ⟨us,hfmt,hnine,hmem⟩ := fmt_ok hbuffer hmod0 hmodlt
  have htext := hcached.text
  rw [hlast,hdiv] at htext
  obtain ⟨time,htime,hstr⟩ := T.new_ok htext (n := 17) (by decide) hsecond
  obtain ⟨micros,hmicros,hstr'⟩ := T.new_ok hmem (n := 9) (by decide) (microString_strlen hmod0 hmodlt)
  obtain ⟨b₁,b₂,he₁,he₂,hb₂⟩ := insert_texts hinit (by rw [hstr]; exact hsecond)
    (by rw [hstr']; exact microString_strlen hmod0 hmodlt)
  refine ⟨l',b₂,?_,hcached,?_⟩
  · have htime' : T.new l'.t_time 17 = .ok time := htime
    have hmicros' : T.new us.pStrBuffer 9 = .ok micros := hmicros
    simp only [formatTime,hupdate,ok_bind,hmod,hfmt,ensure_of _ hnine,htime',he₁,hmicros',he₂]
  · rw [hb₂,hstr,hstr']
    rfl

/-! All the records of a thread. -/

theorem step_ok {s : State} {r : Record} (hv : r.Valid format) (hroom : s.locals.t_time.length = 32)
    (h : r.timeStamp.tdiv microSecondPerSecond ≠ s.locals.t_lastSecond ∨ Cached s.locals) :
    ∃ t, step format s r = .ok t ∧ Cached t.locals ∧ t.emitted = s.emitted ++ [rendering r.timeStamp] := by
  obtain ⟨l,stream,hrun,hcached,htext⟩ := formatTime_ok hv hroom h
  exact ⟨⟨l,s.emitted ++ [stream.asString]⟩,by rw [step,hrun,ok_bind],hcached,by rw [htext]⟩

/-- Once the thread keeps a text, every record gets its own time. -/
theorem run_cached {s : State} (hs : Cached s.locals) {records : List Record} (hv : ∀ r ∈ records, r.Valid format) :
    ∃ t, (machine format).run s records = .ok t ∧
      t.emitted = s.emitted ++ records.map fun r => rendering r.timeStamp := by
  induction records generalizing s with
  | nil => exact ⟨s,rfl,(List.append_nil _).symm⟩
  | cons r records ih =>
    obtain ⟨u,hu,hcached,hemitted⟩ := step_ok (hv r List.mem_cons_self) hs.room (.inr hs)
    obtain ⟨t,hrun,htext⟩ := ih hcached fun r hr => hv r (List.mem_cons_of_mem _ hr)
    refine ⟨t,?_,?_⟩
    · rw [Machine.run_cons]
      change (step format s r >>= _) = _
      rw [hu,ok_bind,hrun]
    · rw [htext,hemitted,List.map_cons,List.append_assoc]
      rfl

/-- A thread's first record in the first second of the epoch: the second is that of the
variables' zeros, and there is no text. -/
theorem step_initial {r : Record} (hv : r.Valid format) (h : r.timeStamp < microSecondPerSecond) :
    step format ⟨.initial,[]⟩ r = .error (.assertion "strlen(pStr) == m_unLength") := by
  obtain ⟨h0,-,hbuffer,-⟩ := hv
  have hzero : r.timeStamp.tdiv microSecondPerSecond = 0 := Int.tdiv_eq_zero_of_lt h0 h
  have hmod : r.timeStamp.tmod microSecondPerSecond = r.timeStamp := Int.tmod_eq_of_lt h0 h
  have hupdate : updateTime .initial 0 = .ok .initial := rfl
  obtain ⟨us,hfmt,hnine,-⟩ := fmt_ok hbuffer h0 h
  have hmem : CString.ofMemory Locals.initial.t_time = .ok ⟨[],List.not_mem_nil⟩ := by decide
  have htime := T.new_error hmem (n := 17) (by decide) (by decide)
  change T.new Locals.initial.t_time 17 = _ at htime
  simp only [step,formatTime,hzero,hmod,hupdate,ok_bind,hfmt,ensure_of _ hnine,htime]
  rfl

/-- Every record of a thread has its own time in front exactly if the first one is not of
the first second of the epoch, whatever seconds the others come from. -/
theorem cached_time_iff (records : List Record) (hv : ∀ r ∈ records, r.Valid format) :
    (∃ s, (machine format).run ⟨.initial,[]⟩ records = .ok s ∧ s.emitted = records.map fun r => rendering r.timeStamp) ↔
      ∀ r ∈ records.head?, microSecondPerSecond ≤ r.timeStamp := by
  cases records with
  | nil => exact iff_of_true ⟨_,rfl,rfl⟩ fun r hr => absurd hr (by simp)
  | cons r records =>
    have hr := hv r List.mem_cons_self
    rw [List.head?_cons]
    constructor
    · rintro ⟨s,hrun,-⟩ r' hr'
      cases hr'
      by_contra hlate
      obtain ⟨u,hu,-⟩ := (bind_ok_iff _ _ _).mp hrun
      cases (step_initial hr (not_le.mp hlate)).symm.trans hu
    · intro hlate
      have hsecond : r.timeStamp.tdiv microSecondPerSecond ≠ 0 := by
        have hle := hlate r rfl
        rw [Int.tdiv_eq_ediv_of_nonneg hr.nonneg]
        rw [microSecondPerSecond] at hle ⊢
        omega
      obtain ⟨u,hu,hcached,hemitted⟩ := @step_ok format ⟨.initial,[]⟩ r hr List.length_replicate (.inl hsecond)
      obtain ⟨t,hrun,htext⟩ := run_cached hcached fun r hr => hv r (List.mem_cons_of_mem _ hr)
      refine ⟨t,?_,?_⟩
      · rw [Machine.run_cons]
        change (step format _ r >>= _) = _
        rw [hu,ok_bind,hrun]
      · rw [htext,hemitted,List.map_cons]
        rfl

/-- The half, for a format. -/
def half : Float → CString := fun _ => ⟨['0','.','5'],by decide⟩

def recordAt (timeStamp : Int) : Record := ⟨timeStamp,List.replicate 32 '?',⟨List.replicate 4000 '?',0⟩⟩

theorem recordAt_valid {timeStamp : Int} (h0 : 0 ≤ timeStamp)
    (hyear : (gmtime_r (timeStamp / microSecondPerSecond)).tm_year + 1900 ≤ 9999) : (recordAt timeStamp).Valid half :=
  ⟨h0,hyear,List.length_replicate,List.length_replicate,rfl⟩

/-- Two records of a second, one of the next, and one of the second before. -/
theorem cached_time_iff_four :
    let records := [recordAt 1700000000000005,recordAt 1700000000999999,recordAt 1700000001000000,recordAt 1700000000123456]
    ∃ s, (machine half).run ⟨.initial,[]⟩ records = .ok s ∧
      s.emitted = ["20231114 22:13:20.000005Z ".toList,"20231114 22:13:20.999999Z ".toList,
        "20231114 22:13:21.000000Z ".toList,"20231114 22:13:20.123456Z ".toList] := by
  intro records
  have hv : ∀ r ∈ records, r.Valid half := by
    intro r hr
    simp only [records,List.mem_cons,List.not_mem_nil,or_false] at hr
    rcases hr with rfl | rfl | rfl | rfl <;> exact recordAt_valid (by decide) (by decide +kernel)
  obtain ⟨s,hrun,hs⟩ := (cached_time_iff records hv).mpr (by decide)
  exact ⟨s,hrun,hs.trans (by decide +kernel)⟩

/-- A thread whose first record comes in the first second of the epoch is stopped by an assertion. -/
theorem epoch_asserts : (recordAt 5).Valid half ∧
    (machine half).run ⟨.initial,[]⟩ [recordAt 5] = .error (.assertion "strlen(pStr) == m_unLength") ∧
    ¬ ∃ s, (machine half).run ⟨.initial,[]⟩ [recordAt 5] = .ok s ∧ s.emitted = [rendering 5] := by
  have hv : (recordAt 5).Valid half := recordAt_valid (by decide) (by decide +kernel)
  have hstep := step_initial hv (show (5 : Int) < microSecondPerSecond by decide)
  have hrun : (machine half).run ⟨.initial,[]⟩ [recordAt 5] = .error (.assertion "strlen(pStr) == m_unLength") := by
    rw [Machine.run_cons]
    change (step half _ _ >>= _) = _
    rw [hstep]
    rfl
  refine ⟨hv,hrun,?_⟩
  rintro ⟨s,hs,-⟩
  cases hrun.symm.trans hs

end LinuxServer.Logging.LogTime
