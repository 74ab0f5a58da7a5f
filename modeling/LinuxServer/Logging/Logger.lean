import LinuxServer.Logging.LogTime

/-! The life of a log record: a header, the user's items, and a trailer that is
printed last into what room the others have left. -/
namespace LinuxServer.Logging.Logger
open LinuxServer.Lib LogStream LogTime

inductive LogLevel where
  | trace
  | debug
  | info
  | warning
  | error
  | fatal
  deriving DecidableEq

def logLevelName : LogLevel → CString
  | .trace => ⟨"TRACE".toList,by decide⟩
  | .debug => ⟨"DEBUG".toList,by decide⟩
  | .info => ⟨"INFO".toList,by decide⟩
  | .warning => ⟨"WARNING".toList,by decide⟩
  | .error => ⟨"ERROR".toList,by decide⟩
  | .fatal => ⟨"FATAL".toList,by decide⟩

structure Impl where
  stream : FixedBuffer
  level : LogLevel
  nLine : BitVec 32
  pStrBaseName : CString

/-- The part of a path behind its last slash. -/
def baseName (pStrFullName : CString) : CString where
  chars := pStrFullName.chars.rtakeWhile fun c => c ≠ '/'
  noTerminator h := pStrFullName.noTerminator ((List.rtakeWhile_suffix _ _).subset h)

/-- The constructors: with a level or not, with a function's name, or with errno. -/
inductive Kind where
  | plain
  | level (eLevel : LogLevel)
  | function (eLevel : LogLevel) (pStrFunc : CString)
  | sys (bAbort : Bool) (nErrno : BitVec 32)

variable (format : Float → CString) (strError_tl : BitVec 32 → CString)

/-- A chain of insertions. -/
def print (stream : FixedBuffer) (items : List Item) : Except Halt FixedBuffer := items.foldlM (insertItem format) stream

def Impl.header (level : LogLevel) (nOldErrno : BitVec 32) : List Item :=
  [.cString ⟨['['],by decide⟩,.cString (logLevelName level),.cString ⟨[']','\t'],by decide⟩] ++
    if 0 ≠ nOldErrno then [.cString (strError_tl nOldErrno),.cString ⟨" (errno=".toList,by decide⟩,.integer .int nOldErrno,
      .cString ⟨") ".toList,by decide⟩]
    else []

/-- The constructor of the Impl, in a thread with its variables. -/
def Impl.new (l : Locals) (r : Record) (level : LogLevel) (nOldErrno : BitVec 32) (pStrFile : CString) (nLine : BitVec 32) :
    Except Halt (Locals × Impl) := do
  let (l,stream) ← formatTime format l r.timeStamp r.pStrBuffer r.stream
  let stream ← print format stream (Impl.header strError_tl level nOldErrno)
  .ok (l,⟨stream,level,nLine,baseName pStrFile⟩)

def new (l : Locals) (r : Record) (kind : Kind) (pStrFile : CString) (nLine : BitVec 32) : Except Halt (Locals × Impl) :=
  match kind with
  | .plain => Impl.new format strError_tl l r .info 0 pStrFile nLine
  | .level eLevel => Impl.new format strError_tl l r eLevel 0 pStrFile nLine
  | .function eLevel pStrFunc => do
    let (l,impl) ← Impl.new format strError_tl l r eLevel 0 pStrFile nLine
    let stream ← print format impl.stream [.cString pStrFunc,.char ' ']
    .ok (l,{ impl with stream := stream })
  | .sys bAbort nErrno =>
    Impl.new format strError_tl l r (if bAbort then .fatal else .error) nErrno pStrFile nLine

/-- The user's insertions. -/
def Impl.insert (impl : Impl) (items : List Item) : Except Halt Impl := do
  let stream ← print format impl.stream items
  .ok { impl with stream := stream }

def Impl.trailer (impl : Impl) : List Item :=
  [.cString ⟨['\t'],by decide⟩,.cString impl.pStrBaseName,.cString ⟨[':'],by decide⟩,.integer .int impl.nLine,.char '\n']

/-- What an ended Logger gave to the output function, and whether it then aborted. -/
structure Output where
  msg : List Char
  aborted : Bool
  deriving DecidableEq

/-- The destructor. -/
def Impl.destroy (impl : Impl) : Except Halt Output := do
  let stream ← print format impl.stream impl.trailer
  .ok ⟨stream.asString,impl.level = .fatal⟩

/-- A text that ends in its only newline. -/
def OneLine (msg : List Char) : Prop := ∃ line, msg = line ++ ['\n'] ∧ '\n' ∉ line

/-- The items are newline-free. -/
def Plain (items : List Item) : Prop := ∀ item ∈ items, '\n' ∉ render format item

def Kind.Plain : Kind → Prop
  | .function _ pStrFunc => '\n' ∉ pStrFunc.chars
  | _ => True

/-- The front of the base name that the int of its length counts: all of it below 2^31. -/
def Impl.countedName (impl : Impl) : CString := impl.pStrBaseName.take (asInt impl.pStrBaseName.strlen).toNat

/-- What the trailer finds when the destructor begins: the newline has room, and no other
newline gets in with the base name (or the base name's own is the last character). -/
def Terminated (impl : Impl) : Prop :=
  0 ≤ asInt impl.pStrBaseName.strlen ∧
    (impl.stream.cur < 3997 ∧
        (impl.stream.cur + impl.countedName.strlen < 3997 ∧ '\n' ∉ impl.countedName.chars ∨
          3999 ≤ impl.stream.cur + impl.countedName.strlen) ∨
      impl.stream.cur + impl.countedName.strlen = 3998 ∧ OneLine impl.countedName.chars)

/-- The texts of errors are newline-free. -/
def ErrorTexts : Prop := ∀ nErrno, '\n' ∉ (strError_tl nErrno).chars

variable {format} {strError_tl}

/-! Lines. -/

theorem oneLine_concat {s : List Char} : OneLine (s ++ ['\n']) ↔ '\n' ∉ s := by
  constructor
  · rintro ⟨line,heq,hfree⟩
    rwa [List.append_cancel_right heq]
  · exact fun hfree => ⟨s,rfl,hfree⟩

theorem not_oneLine_concat {s : List Char} {c : Char} (hc : c ≠ '\n') : ¬ OneLine (s ++ [c]) := by
  rintro ⟨line,heq,-⟩
  have hlast := congrArg List.getLast? heq
  rw [List.getLast?_concat,List.getLast?_concat,Option.some.injEq] at hlast
  exact hc hlast

theorem not_oneLine_of_free {s : List Char} (h : '\n' ∉ s) : ¬ OneLine s := by
  rintro ⟨line,rfl,-⟩
  exact h (List.mem_append_right _ (List.mem_singleton_self _))

/-- Text without a newline in front of a text changes nothing. -/
theorem oneLine_append {s base : List Char} (h : '\n' ∉ s) : OneLine (s ++ base) ↔ OneLine base := by
  constructor
  · intro hline
    rcases List.eq_nil_or_concat base with rfl | ⟨front,c,rfl⟩
    · rw [List.append_nil] at hline
      exact absurd hline (not_oneLine_of_free h)
    · rw [List.concat_eq_append] at hline ⊢
      rw [← List.append_assoc] at hline
      by_cases hc : c = '\n'
      · rw [hc,oneLine_concat] at hline ⊢
        exact fun hmem => hline (List.mem_append_right _ hmem)
      · exact absurd hline (not_oneLine_concat hc)
  · rintro ⟨line,rfl,hfree⟩
    refine ⟨s ++ line,(List.append_assoc ..).symm,?_⟩
    rw [List.mem_append]
    exact not_or.mpr ⟨h,hfree⟩

/-! Insertions in a row. -/

/-- What the insertion of items makes of a text. -/
def fitAll (format : Float → CString) (text : List Char) (items : List Item) : List Char :=
  (items.map Call.insert).foldl (fit format) text

theorem fitAll_cons (text : List Char) (item : Item) (items : List Item) :
    fitAll format text (item :: items) = fitAll format (fit format text (.insert item)) items := rfl

theorem insertItem_fit (hshort : Short format) {b : FixedBuffer} (h : Open b) {item : Item} (hcounted : item.Counted format) :
    ∃ b', insertItem format b item = .ok b' ∧ Open b' ∧ b'.asString = fit format b.asString (.insert item.counted) := by
  rw [Item.Counted] at hcounted
  rw [insertItem_counted hshort h.wf,if_pos hcounted]
  refine @step_fit format b hshort h (.insert item.counted) ?_
  intro item' heq
  cases heq
  exact small_counted hshort item

theorem counted_of_insertItem (hshort : Short format) {b b' : FixedBuffer} (h : Open b) {item : Item}
    (hrun : insertItem format b item = .ok b') : item.Counted format := by
  by_contra hnot
  rw [Item.Counted] at hnot
  rw [insertItem_counted hshort h.wf,if_neg hnot] at hrun
  cases hrun

theorem print_fit (hshort : Short format) {b : FixedBuffer} (h : Open b) {items : List Item}
    (hcounted : ∀ item ∈ items, item.Counted format) :
    ∃ b', print format b items = .ok b' ∧ Open b' ∧ b'.asString = fitAll format b.asString (items.map Item.counted) := by
  induction items generalizing b with
  | nil => exact ⟨b,rfl,h,rfl⟩
  | cons item items ih =>
    obtain ⟨b₁,he₁,hopen₁,htext₁⟩ := insertItem_fit hshort h (hcounted item List.mem_cons_self)
    obtain ⟨b',hrun,hopen,htext⟩ := ih hopen₁ fun i hi => hcounted i (List.mem_cons_of_mem _ hi)
    rw [htext₁] at htext
    refine ⟨b',?_,hopen,htext⟩
    rw [print,List.foldlM_cons,he₁,ok_bind]
    exact hrun

theorem counted_of_print (hshort : Short format) {b b' : FixedBuffer} (h : Open b) {items : List Item}
    (hrun : print format b items = .ok b') : ∀ item ∈ items, item.Counted format := by
  induction items generalizing b with
  | nil => exact fun item hi => absurd hi List.not_mem_nil
  | cons item items ih =>
    rw [print,List.foldlM_cons] at hrun
    obtain ⟨b₁,he₁,hrun⟩ := (bind_ok_iff _ _ _).mp hrun
    have hitem := counted_of_insertItem hshort h he₁
    obtain ⟨b₂,he₂,hopen₂,-⟩ := insertItem_fit hshort h hitem
    cases he₁.symm.trans he₂
    exact List.forall_mem_cons.mpr ⟨hitem,ih hopen₂ hrun⟩

theorem fit_string (text : List Char) (pCVal : CString) : fit format text (.insert (.cString pCVal)) =
    if text.length + (pCVal.strlen + 1) ≤ 4000 then text ++ pCVal.chars else text := rfl
theorem fit_symbol (text : List Char) (c : Char) (h : terminator ∉ [c]) : fit format text (.insert (.cString ⟨[c],h⟩)) =
    if text.length + 2 ≤ 4000 then text ++ [c] else text := rfl
theorem fit_int (text : List Char) (v : BitVec 32) : fit format text (.insert (.integer .int v)) =
    if text.length + 33 ≤ 4000 then text ++ integerNumeral 10 v.toInt else text := rfl
theorem fit_char (text : List Char) (c : Char) : fit format text (.insert (.char c)) =
    if text.length + 2 ≤ 4000 then text ++ [c] else text := rfl

/-- Newline-free items bring no newline. -/
theorem newline_fitAll {items : List Item} (hfree : ∀ item ∈ items, '\n' ∉ render format item) {text : List Char}
    (h : '\n' ∉ text) : '\n' ∉ fitAll format text items := by
  induction items generalizing text with
  | nil => exact h
  | cons item items ih =>
    refine ih (fun i hi => hfree i (List.mem_cons_of_mem _ hi)) ?_
    simp only [fit]
    split
    · rw [List.mem_append]
      exact not_or.mpr ⟨h,hfree item List.mem_cons_self⟩
    · exact h

/-- A newline-free stream in use. -/
structure Blank (b : FixedBuffer) : Prop where
  toOpen : Open b
  free : '\n' ∉ b.asString

theorem print_blank (hshort : Short format) {b b' : FixedBuffer} (h : Blank b) {items : List Item} (hitems : Plain format items)
    (hrun : print format b items = .ok b') : Blank b' := by
  obtain ⟨b'',hrun',hopen,htext⟩ := print_fit hshort h.toOpen (counted_of_print hshort h.toOpen hrun)
  cases hrun.symm.trans hrun'
  refine ⟨hopen,?_⟩
  rw [htext]
  refine newline_fitAll ?_ h.free
  intro item hi hmem
  obtain ⟨item',hi',rfl⟩ := List.mem_map.mp hi
  exact hitems item' hi' (mem_render_counted hmem)

/-! The trailer. -/

theorem newline_notMem_integer (v : BitVec 32) : '\n' ∉ render format (.integer .int v) := fun h =>
  absurd (fieldChar_integerNumeral h) (by decide)

/-- The colon, the line and the newline: with three bytes of room the newline gets in, with two
the colon takes its place. -/
theorem fit_end (nLine : BitVec 32) {text : List Char} (hlen : text.length < 4000) :
    fitAll format text [.cString ⟨[':'],by decide⟩,.integer .int nLine,.char '\n'] =
      if text.length < 3998 then
        text ++ [':'] ++ (if text.length + 34 ≤ 4000 then integerNumeral 10 nLine.toInt else []) ++ ['\n']
      else if text.length = 3998 then text ++ [':'] else text := by
  have hnum : (integerNumeral 10 nLine.toInt).length ≤ 21 :=
    length_integerNumeral_le (by decide) (by decide) (natAbs_val_lt_pow .int nLine)
  have hcolon : (text ++ [':']).length = text.length + 1 := List.length_append
  have hnumeral : (text ++ [':'] ++ integerNumeral 10 nLine.toInt).length = text.length + 1 + (integerNumeral 10 nLine.toInt).length := by
    rw [List.length_append,hcolon]
  simp only [fitAll,List.map_cons,List.map_nil,List.foldl_cons,List.foldl_nil,fit_symbol,fit_int,fit_char]
  by_cases hroom : text.length < 3998
  · by_cases hint : text.length + 34 ≤ 4000
    · simp only [if_pos hroom,if_pos hint,if_pos (show text.length + 2 ≤ 4000 by omega),
        if_pos (show (text ++ [':']).length + 33 ≤ 4000 by omega),
        if_pos (show (text ++ [':'] ++ integerNumeral 10 nLine.toInt).length + 2 ≤ 4000 by omega)]
    · simp only [if_pos hroom,if_neg hint,if_pos (show text.length + 2 ≤ 4000 by omega),
        if_neg (show ¬ (text ++ [':']).length + 33 ≤ 4000 by omega),
        if_pos (show (text ++ [':']).length + 2 ≤ 4000 by omega),List.append_nil]
  · by_cases hfull : text.length = 3998
    · simp only [if_neg hroom,if_pos hfull,if_pos (show text.length + 2 ≤ 4000 by omega),
        if_neg (show ¬ (text ++ [':']).length + 33 ≤ 4000 by omega),
        if_neg (show ¬ (text ++ [':']).length + 2 ≤ 4000 by omega)]
    · simp only [if_neg hroom,if_neg hfull,if_neg (show ¬ text.length + 2 ≤ 4000 by omega),
        if_neg (show ¬ text.length + 33 ≤ 4000 by omega)]

/-- Of a text with the base name at its end the last insertions make one line exactly if
the newline has room and the base name has none, or is itself the end. -/
theorem oneLine_end (nLine : BitVec 32) {text base : List Char} (htext : '\n' ∉ text) (hlen : (text ++ base).length < 4000) :
    OneLine (fitAll format (text ++ base) [.cString ⟨[':'],by decide⟩,.integer .int nLine,.char '\n']) ↔
      (text ++ base).length < 3998 ∧ '\n' ∉ base ∨ (text ++ base).length = 3999 ∧ OneLine base := by
  rw [fit_end nLine hlen]
  split
  · rename_i hroom
    have hfree : '\n' ∉ (if (text ++ base).length + 34 ≤ 4000 then integerNumeral 10 nLine.toInt else []) := by
      split
      · exact @newline_notMem_integer format nLine
      · exact List.not_mem_nil
    rw [oneLine_concat]
    simp only [List.mem_append,List.mem_singleton,htext,hfree,false_or,or_false,hroom,true_and,
      show ¬ '\n' = ':' by decide,show ¬ (text ++ base).length = 3999 by omega,false_and]
  · rename_i hroom
    split
    · rename_i hfull
      simp only [not_oneLine_concat (show ':' ≠ '\n' by decide),hroom,false_and,show ¬ (text ++ base).length = 3999 by omega,
        or_false]
    · rename_i hfull
      have hend : (text ++ base).length = 3999 := by omega
      rw [oneLine_append htext]
      exact ⟨fun hline => .inr ⟨hend,hline⟩,fun h => h.elim (fun h => absurd h.1 hroom) And.right⟩

theorem counted_trailer {impl : Impl} :
    (∀ item ∈ impl.trailer, item.Counted format) ↔ 0 ≤ asInt impl.pStrBaseName.strlen := by
  have hnum : (integerNumeral 10 impl.nLine.toInt).length ≤ 21 :=
    length_integerNumeral_le (by decide) (by decide) (natAbs_val_lt_pow .int impl.nLine)
  have hline : (Item.integer .int impl.nLine).Counted format := by
    change 0 ≤ asInt (integerNumeral 10 impl.nLine.toInt).length
    rw [asInt_of_lt (hnum.trans_lt (by decide))]
    exact Int.natCast_nonneg _
  have hone : 0 ≤ asInt 1 := by decide
  constructor
  · intro h
    exact h (.cString impl.pStrBaseName) (List.mem_cons_of_mem _ List.mem_cons_self)
  · intro h item hi
    simp only [Impl.trailer,List.mem_cons,List.not_mem_nil,or_false] at hi
    rcases hi with rfl | rfl | rfl | rfl | rfl
    · exact hone
    · exact h
    · exact hone
    · exact hline
    · exact hone

/-- The tab goes behind the text, or is left out. -/
theorem fit_tab {text : List Char} (h : '\n' ∉ text) : ∃ tabbed,
    fit format text (.insert (.cString ⟨['\t'],by decide⟩)) = tabbed ∧ '\n' ∉ tabbed ∧
      (text.length < 3999 ∧ tabbed.length = text.length + 1 ∨ 3999 ≤ text.length ∧ tabbed.length = text.length) := by
  by_cases hroom : text.length + 2 ≤ 4000
  · refine ⟨text ++ ['\t'],(fit_symbol text '\t' _).trans (if_pos hroom),?_,.inl ⟨by omega,List.length_append⟩⟩
    rw [List.mem_append,List.mem_singleton]
    exact not_or.mpr ⟨h,by decide⟩
  · exact ⟨text,(fit_symbol text '\t' _).trans (if_neg hroom),h,.inr ⟨by omega,rfl⟩⟩

/-- What the trailer makes of a newline-free text. -/
theorem oneLine_trailer (nLine : BitVec 32) {text : List Char} (base : CString) (hfree : '\n' ∉ text) (hlen : text.length < 4000) :
    OneLine (fitAll format text [.cString ⟨['\t'],by decide⟩,.cString base,.cString ⟨[':'],by decide⟩,.integer .int nLine,.char '\n']) ↔
      text.length < 3997 ∧
          (text.length + base.strlen < 3997 ∧ '\n' ∉ base.chars ∨ 3999 ≤ text.length + base.strlen) ∨
        text.length + base.strlen = 3998 ∧ OneLine base.chars := by
  obtain ⟨tabbed,htab,hfree',hcases⟩ := @fit_tab format text hfree
  have hnil : ¬ OneLine [] := not_oneLine_of_free List.not_mem_nil
  rw [fitAll_cons,fitAll_cons,htab,fit_string tabbed]
  split
  · rename_i hfits
    have happend : (tabbed ++ base.chars).length = tabbed.length + base.strlen := List.length_append
    have hempty : OneLine base.chars → base.strlen ≠ 0 := by
      intro hline hzero
      rw [List.length_eq_zero_iff.mp hzero] at hline
      exact hnil hline
    rw [oneLine_end nLine hfree' (by omega),happend]
    by_cases hline : OneLine base.chars
    · have hpos := hempty hline
      simp only [hline,and_true]
      by_cases hbare : '\n' ∈ base.chars
      · simp only [hbare,not_true_eq_false,and_false,false_or]
        omega
      · simp only [hbare,not_false_eq_true,and_true]
        omega
    · simp only [hline,and_false,or_false]
      by_cases hbare : '\n' ∈ base.chars
      · simp only [hbare,not_true_eq_false,and_false,false_or,false_iff]
        omega
      · simp only [hbare,not_false_eq_true,and_true]
        omega
  · rename_i hfull
    have hend := @oneLine_end format nLine tabbed [] hfree' (by rw [List.append_nil]; omega)
    rw [List.append_nil] at hend
    rw [hend]
    simp only [hnil,List.not_mem_nil,not_false_eq_true,and_true,and_false,or_false]
    omega

/-- The destructor makes one line of a newline-free stream exactly if there is room at its end. -/
theorem destroy_oneLine_iff (hshort : Short format) {impl : Impl} (h : Blank impl.stream) :
    (∃ out, impl.destroy format = .ok out ∧ OneLine out.msg) ↔ Terminated impl := by
  by_cases hname : 0 ≤ asInt impl.pStrBaseName.strlen
  swap
  · refine iff_of_false ?_ fun ht => hname ht.1
    rintro ⟨out,hrun,-⟩
    obtain ⟨stream,hprint,-⟩ := (bind_ok_iff _ _ _).mp hrun
    exact hname (counted_trailer.mp (counted_of_print hshort h.toOpen hprint))
  obtain ⟨hopen,hfree⟩ := h
  obtain ⟨stream,hprint,-,htext⟩ := print_fit hshort hopen (counted_trailer.mpr hname)
  have hdestroy : impl.destroy format = .ok ⟨stream.asString,impl.level = .fatal⟩ := by rw [Impl.destroy,hprint,ok_bind]
  have hcur := hopen.cur
  have hlen := hopen.asString_length
  rw [smallBuffer] at hcur
  have hout : (∃ out, impl.destroy format = .ok out ∧ OneLine out.msg) ↔ OneLine stream.asString := by
    rw [hdestroy]
    constructor
    · rintro ⟨out,hout,hline⟩
      cases hout
      exact hline
    · exact fun hline => ⟨_,rfl,hline⟩
  have hnames : impl.trailer.map Item.counted =
      [.cString ⟨['\t'],by decide⟩,.cString impl.countedName,.cString ⟨[':'],by decide⟩,.integer .int impl.nLine,.char '\n'] := rfl
  rw [hout,htext,hnames,oneLine_trailer impl.nLine impl.countedName hfree (hlen.trans_lt hcur),hlen,Terminated,
    and_iff_right hname]

/-! The header. -/

theorem updateTime_free {l l' : Locals} {seconds : Int} (hl : '\n' ∉ l.t_time) (h : updateTime l seconds = .ok l') :
    '\n' ∉ l'.t_time := by
  rw [updateTime] at h
  split at h
  · obtain ⟨⟨t_time,len⟩,hprint,h⟩ := (bind_ok_iff _ _ _).mp h
    obtain ⟨-,-,h⟩ := (bind_ok_iff _ _ _).mp h
    cases h
    rw [of_snprintf_ok (by decide) hprint]
    intro hmem
    rcases List.mem_append.mp hmem with htext | hmem
    · rcases mem_timeText (List.mem_of_mem_take htext) with hfield | hcolon
      · exact absurd hfield (by decide)
      · exact absurd hcolon (by decide)
    · rcases List.mem_cons.mp hmem with hend | hold
      · exact absurd hend (by decide)
      · exact hl (List.mem_of_mem_drop hold)
  · cases h
    exact hl

theorem T.of_new_ok {mem : List Char} {nLength : Int} {val : T} (h : T.new mem nLength = .ok val) :
    CString.ofMemory mem = .ok val.pStr := by
  obtain ⟨pStr,hmem,h⟩ := (bind_ok_iff _ _ _).mp h
  dsimp only at h
  split at h
  · cases h
    exact hmem
  · cases h

theorem insertItem_blank (hshort : Short format) {b b' : FixedBuffer} (h : Blank b) {item : Item}
    (hitem : '\n' ∉ render format item) (hrun : insertItem format b item = .ok b') : Blank b' := by
  have hprint : print format b [item] = .ok b' := by
    rw [print,List.foldlM_cons,hrun]
    rfl
  exact print_blank hshort h (fun i hi => List.mem_singleton.mp hi ▸ hitem) hprint

/-- What FormatTime has done when it returns. -/
theorem of_formatTime_ok {l l' : Locals} {timeStamp : Int} {pStrBuffer : List Char} {stream stream' : FixedBuffer}
    (hrun : formatTime format l timeStamp pStrBuffer stream = .ok (l',stream')) :
    updateTime l (timeStamp.tdiv microSecondPerSecond) = .ok l' ∧
      ∃ us time b₁ micros, Fmt.new pStrBuffer (microText (timeStamp.tmod microSecondPerSecond)) = .ok us ∧
        T.new l'.t_time 17 = .ok time ∧ insertItem format stream (.sized time) = .ok b₁ ∧
        T.new us.pStrBuffer 9 = .ok micros ∧ insertItem format b₁ (.sized micros) = .ok stream' := by
  obtain ⟨l₁,hupdate,hrun⟩ := (bind_ok_iff _ _ _).mp hrun
  obtain ⟨us,hfmt,hrun⟩ := (bind_ok_iff _ _ _).mp hrun
  obtain ⟨-,-,hrun⟩ := (bind_ok_iff _ _ _).mp hrun
  obtain ⟨time,htime,hrun⟩ := (bind_ok_iff _ _ _).mp hrun
  obtain ⟨b₁,he₁,hrun⟩ := (bind_ok_iff _ _ _).mp hrun
  obtain ⟨micros,hmicros,hrun⟩ := (bind_ok_iff _ _ _).mp hrun
  obtain ⟨b₂,he₂,hrun⟩ := (bind_ok_iff _ _ _).mp hrun
  cases hrun
  exact ⟨hupdate,us,time,b₁,micros,hfmt,htime,he₁,hmicros,he₂⟩

theorem micros_free {pStrBuffer : List Char} {microSeconds nLength : Int} {us : Fmt} {micros : T}
    (hfmt : Fmt.new pStrBuffer (microText microSeconds) = .ok us) (hmicros : T.new us.pStrBuffer nLength = .ok micros) :
    '\n' ∉ micros.pStr.chars := by
  obtain ⟨⟨mem,nPrinted⟩,hprint,hfmt⟩ := (bind_ok_iff _ _ _).mp hfmt
  obtain ⟨-,-,hfmt⟩ := (bind_ok_iff _ _ _).mp hfmt
  cases hfmt
  have hmem := T.of_new_ok hmicros
  rw [of_snprintf_ok (by decide) hprint] at hmem
  have htext : (microString microSeconds).take 31 = micros.pStr := Except.ok.inj ((CString.ofMemory_append _ _).symm.trans hmem)
  rw [← htext]
  intro hnew
  rcases mem_microText (List.mem_of_mem_take hnew) with hfield | hdot | hzone
  · exact absurd hfield (by decide)
  · exact absurd hdot (by decide)
  · exact absurd hzone (by decide)

theorem formatTime_blank (hshort : Short format) {l l' : Locals} (hl : '\n' ∉ l.t_time) {timeStamp : Int} {pStrBuffer : List Char}
    {stream stream' : FixedBuffer} (h : Blank stream)
    (hrun : formatTime format l timeStamp pStrBuffer stream = .ok (l',stream')) : Blank stream' := by
  obtain ⟨hupdate,us,time,b₁,micros,hfmt,htime,he₁,hmicros,he₂⟩ := of_formatTime_ok hrun
  have htime' : '\n' ∉ time.pStr.chars := fun hmem =>
    updateTime_free hl hupdate (CString.mem_ofMemory (T.of_new_ok htime) hmem)
  have hb₁ := @insertItem_blank format hshort _ _ h (.sized time) htime' he₁
  exact @insertItem_blank format hshort _ _ hb₁ (.sized micros) (micros_free hfmt hmicros) he₂

/-- The text that a thread keeps is newline-free. -/
theorem run_locals_free {records : List Record} {s s' : LogTime.State} (h : '\n' ∉ s.locals.t_time)
    (hrun : (LogTime.machine format).run s records = .ok s') : '\n' ∉ s'.locals.t_time := by
  refine (LogTime.machine format).run_invariant (P := fun (s : LogTime.State) => '\n' ∉ s.locals.t_time) ?_ h hrun
  intro s r t hs hstep
  obtain ⟨⟨l,stream⟩,hformat,hstep⟩ := (bind_ok_iff _ _ _).mp hstep
  cases hstep
  exact updateTime_free hs (of_formatTime_ok hformat).1

theorem plain_header (herror : ErrorTexts strError_tl) (level : LogLevel) (nOldErrno : BitVec 32) :
    Plain format (Impl.header strError_tl level nOldErrno) := by
  intro item hi
  rcases List.mem_append.mp hi with hi | hi
  · simp only [List.mem_cons,List.not_mem_nil,or_false] at hi
    rcases hi with rfl | rfl | rfl
    · exact (by decide : '\n' ∉ ['['])
    · change '\n' ∉ (logLevelName level).chars
      cases level <;> decide
    · exact (by decide : '\n' ∉ [']','\t'])
  · split at hi
    · simp only [List.mem_cons,List.not_mem_nil,or_false] at hi
      rcases hi with rfl | rfl | rfl | rfl
      · exact herror nOldErrno
      · exact (by decide : '\n' ∉ " (errno=".toList)
      · exact newline_notMem_integer nOldErrno
      · exact (by decide : '\n' ∉ ") ".toList)
    · exact absurd hi List.not_mem_nil

theorem impl_blank (hshort : Short format) (herror : ErrorTexts strError_tl) {l l' : Locals} (hl : '\n' ∉ l.t_time) {r : Record}
    (hr : Blank r.stream) {level : LogLevel} {nOldErrno : BitVec 32} {pStrFile : CString} {nLine : BitVec 32} {impl : Impl}
    (hnew : Impl.new format strError_tl l r level nOldErrno pStrFile nLine = .ok (l',impl)) : Blank impl.stream := by
  obtain ⟨⟨l₁,stream⟩,hformat,hnew⟩ := (bind_ok_iff _ _ _).mp hnew
  obtain ⟨stream',hprint,hnew⟩ := (bind_ok_iff _ _ _).mp hnew
  cases hnew
  exact print_blank hshort (formatTime_blank hshort hl hr hformat) (plain_header herror level nOldErrno) hprint

/-- A new Logger's stream is newline-free. -/
theorem new_blank (hshort : Short format) (herror : ErrorTexts strError_tl) {l l' : Locals} (hl : '\n' ∉ l.t_time) {r : Record}
    (hr : Blank r.stream) {kind : Kind} (hkind : kind.Plain) {pStrFile : CString} {nLine : BitVec 32} {impl : Impl}
    (hnew : new format strError_tl l r kind pStrFile nLine = .ok (l',impl)) : Blank impl.stream := by
  cases kind with
  | plain => exact impl_blank hshort herror hl hr hnew
  | level eLevel => exact impl_blank hshort herror hl hr hnew
  | function eLevel pStrFunc =>
    obtain ⟨⟨l₁,impl₁⟩,himpl,hnew⟩ := (bind_ok_iff _ _ _).mp hnew
    obtain ⟨stream,hprint,hnew⟩ := (bind_ok_iff _ _ _).mp hnew
    cases hnew
    refine print_blank hshort (impl_blank hshort herror hl hr himpl) ?_ hprint
    intro item hi
    simp only [List.mem_cons,List.not_mem_nil,or_false] at hi
    rcases hi with rfl | rfl
    · exact hkind
    · exact (by decide : '\n' ∉ [' '])
  | sys bAbort nErrno => exact impl_blank hshort herror hl hr hnew

theorem insert_iff (hshort : Short format) {impl : Impl} (h : Open impl.stream) (items : List Item) :
    (∃ impl', impl.insert format items = .ok impl') ↔ ∀ item ∈ items, item.Counted format := by
  constructor
  · rintro ⟨impl',hrun⟩
    obtain ⟨stream,hprint,-⟩ := (bind_ok_iff _ _ _).mp hrun
    exact counted_of_print hshort h hprint
  · intro hcounted
    obtain ⟨stream,hprint,-⟩ := print_fit hshort h hcounted
    exact ⟨_,by rw [Impl.insert,hprint,ok_bind]⟩

theorem insert_blank (hshort : Short format) {impl impl' : Impl} (h : Blank impl.stream) {items : List Item}
    (hitems : Plain format items) (hrun : impl.insert format items = .ok impl') : Blank impl'.stream := by
  obtain ⟨stream,hprint,hrun⟩ := (bind_ok_iff _ _ _).mp hrun
  cases hrun
  exact print_blank hshort h hitems hprint

/-- Whatever a thread has logged, a record of newline-free items is given out as one line
exactly if no item's length is negative as an int, and the end of the line has room when the destructor begins. -/
theorem record_one_line_iff (hshort : Short format) (herror : ErrorTexts strError_tl) {records : List Record} {s : LogTime.State}
    (hrun : (LogTime.machine format).run ⟨.initial,[]⟩ records = .ok s) {r : Record}
    (hinit : (LogStream.machine format).Init r.stream) {kind : Kind} (hkind : kind.Plain) {pStrFile : CString}
    {nLine : BitVec 32} {l : Locals} {impl : Impl} (hnew : new format strError_tl s.locals r kind pStrFile nLine = .ok (l,impl))
    {items : List Item} (hitems : Plain format items) :
    (∃ impl' out, impl.insert format items = .ok impl' ∧ impl'.destroy format = .ok out ∧ OneLine out.msg) ↔
      (∀ item ∈ items, item.Counted format) ∧ ∀ impl', impl.insert format items = .ok impl' → Terminated impl' := by
  have hempty : Blank r.stream := by
    obtain ⟨hlength,hcur⟩ := hinit
    refine ⟨⟨hlength,by rw [hcur]; decide⟩,?_⟩
    rw [FixedBuffer.asString,hcur]
    exact List.not_mem_nil
  have hblank := new_blank hshort herror (run_locals_free (by decide) hrun) hempty hkind hnew
  have hdestroy {impl' : Impl} (hins : impl.insert format items = .ok impl') :=
    destroy_oneLine_iff hshort (insert_blank hshort hblank hitems hins)
  constructor
  · rintro ⟨impl',out,hins,hout,hline⟩
    refine ⟨(insert_iff hshort hblank.toOpen items).mp ⟨impl',hins⟩,?_⟩
    intro impl'' hins'
    cases hins.symm.trans hins'
    exact (hdestroy hins).mp ⟨out,hout,hline⟩
  · rintro ⟨hcounted,hterminated⟩
    obtain ⟨impl',hins⟩ := (insert_iff hshort hblank.toOpen items).mpr hcounted
    obtain ⟨out,hout,hline⟩ := (hdestroy hins).mpr (hterminated impl' hins)
    exact ⟨impl',out,hins,hout,hline⟩

def noError : BitVec 32 → CString := fun _ => ⟨"Success".toList,by decide⟩

/-- A thread's first record, of a line of a file, up to its destructor. -/
def recordOf (items : List Item) : Except Halt Impl := do
  let (_,impl) ← new half noError .initial (recordAt 1700000000000005) .plain ⟨"src/main.cpp".toList,by decide⟩ 7
  impl.insert half items

theorem short_half : Short half := fun _ => (by decide : 3 < 32)

/-- One item in the middle of a line. -/
theorem record_one_line_iff_greeting : ∃ impl out, recordOf [.string "hello".toList] = .ok impl ∧
    impl.destroy half = .ok out ∧ OneLine out.msg := by
  have hvalue : (recordOf [.string "hello".toList]).toOption.map (fun impl => (impl.stream.cur,impl.pStrBaseName)) =
      some (38,⟨"main.cpp".toList,by decide⟩) := by decide +kernel
  obtain ⟨impl',hrecord⟩ : ∃ impl', recordOf [.string "hello".toList] = .ok impl' := by
    cases hrun : recordOf [.string "hello".toList] with
    | error e => rw [hrun] at hvalue; cases hvalue
    | ok impl' => exact ⟨impl',rfl⟩
  obtain ⟨⟨l,impl⟩,hnew,hins⟩ := (bind_ok_iff _ _ _).mp hrecord
  have hfree : Plain half [.string "hello".toList] := by
    intro item hi
    rw [List.mem_singleton.mp hi]
    exact (by decide : '\n' ∉ "hello".toList)
  have hcounted : ∀ item ∈ [Item.string "hello".toList], item.Counted half := by
    intro item hi
    rw [List.mem_singleton.mp hi]
    exact (by decide : 0 ≤ asInt 5)
  have herror : ErrorTexts noError := fun _ => (by decide : '\n' ∉ "Success".toList)
  have hrun : (LogTime.machine half).run ⟨.initial,[]⟩ [] = .ok ⟨.initial,[]⟩ := rfl
  have hinit : (LogStream.machine half).Init (recordAt 1700000000000005).stream := ⟨List.length_replicate,rfl⟩
  have hkind : Kind.plain.Plain := trivial
  have hterminated : ∀ impl'', impl.insert half [.string "hello".toList] = .ok impl'' → Terminated impl'' := by
    intro impl'' hins'
    cases hins.symm.trans hins'
    rw [hrecord] at hvalue
    obtain ⟨hcur,hname⟩ := Prod.mk.inj (Option.some.inj hvalue)
    rw [Terminated,Impl.countedName,hcur,hname]
    exact ⟨by decide,.inl ⟨by decide,.inl ⟨by decide,by decide⟩⟩⟩
  obtain ⟨impl'',out,hins',hout,hline⟩ :=
    (record_one_line_iff short_half herror hrun hinit hkind hnew hfree).mpr ⟨hcounted,hterminated⟩
  cases hins.symm.trans hins'
  exact ⟨impl',out,hrecord,hout,hline⟩

/-- A string that leaves one byte: the record is given out without its newline. -/
theorem full_record_unterminated : Plain half [.string (List.replicate 3966 'x')] ∧
    ∃ impl out, recordOf [.string (List.replicate 3966 'x')] = .ok impl ∧ impl.destroy half = .ok out ∧
      out.msg.length = 3999 ∧ '\n' ∉ out.msg ∧ ¬ OneLine out.msg := by
  have hvalue : (recordOf [.string (List.replicate 3966 'x')] >>= Impl.destroy half).toOption.map
      (fun out => (out.msg.length,decide ('\n' ∈ out.msg))) = some (3999,false) := by decide +kernel
  have hplain : Plain half [.string (List.replicate 3966 'x')] := by
    intro item hi hmem
    rw [List.mem_singleton.mp hi] at hmem
    exact absurd (List.eq_of_mem_replicate hmem) (by decide)
  refine ⟨hplain,?_⟩
  cases hrecord : recordOf [.string (List.replicate 3966 'x')] with
  | error e => rw [hrecord] at hvalue; cases hvalue
  | ok impl =>
    cases hout : impl.destroy half with
    | error e => rw [hrecord,ok_bind,hout] at hvalue; cases hvalue
    | ok out =>
      rw [hrecord,ok_bind,hout] at hvalue
      obtain ⟨hlen,hmem⟩ := Prod.mk.inj (Option.some.inj hvalue)
      have hfree := of_decide_eq_false hmem
      exact ⟨impl,out,rfl,hout,hlen,hfree,not_oneLine_of_free hfree⟩

end LinuxServer.Logging.Logger
