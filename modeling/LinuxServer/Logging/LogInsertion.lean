import LinuxServer.Lib.CText
import LinuxServer.Logging.LogStream

/-! All that is inserted into a log stream. Each kind of item has a test of its own
for the room it needs, and is written whole or left out. -/
namespace LinuxServer.Logging.LogStream
open LinuxServer.Lib

def smallBuffer : Nat := 4000

/-- A size_t given for an int. -/
def asInt (unLength : Nat) : Int := (unLength : Int).bmod (2 ^ 32)

/-- A string given with its length. -/
structure T where
  pStr : CString
  unLength : Nat
  length_eq : pStr.strlen = unLength

/-- The constructor, on the memory that the pointer points to. -/
def T.new (mem : List Char) (nLength : Int) : Except Halt T := do
  let pStr ← CString.ofMemory mem
  let unLength := (nLength % 2 ^ 64).toNat
  if h : pStr.strlen = unLength then .ok ⟨pStr,unLength,h⟩ else .error (.assertion "strlen(pStr) == m_unLength")

/-- What the inserters and Append take. -/
inductive Item where
  | bool (bVal : Bool)
  | char (cVal : Char)
  | integer (t : IntegerType) (v : BitVec t.width)
  | float (fVal : Float32)
  | double (dVal : Float)
  | pointer (pVoid : BitVec 64)
  | cString (pCVal : CString)
  | sized (val : T)
  | string (rStr : List Char)
  | append (pStrData : List Char)

namespace FixedBuffer

/-- A negative length passes the test and is a huge one for memcpy. -/
def append (b : FixedBuffer) (pStrBuf : List Char) (nLength : Int) : Except Halt FixedBuffer :=
  if nLength < b.getAvail then do
    ensure .outOfBounds (0 ≤ nLength ∧ nLength ≤ pStrBuf.length ∧ b.cur + nLength ≤ b.data.length)
    let n := nLength.toNat
    .ok ⟨b.data.take b.cur ++ (pStrBuf.take n ++ b.data.drop (b.cur + n)),b.cur + n⟩
  else .ok b

/-- The text of "%.12g" is a parameter; snprintf cuts it and returns its whole length. -/
def insertDouble (format : Float → CString) (b : FixedBuffer) (dVal : Float) : Except Halt FixedBuffer :=
  if maxNumericSize ≤ b.getAvail then do
    let (written,nLength) ← snprintf (b.data.drop b.cur) maxNumericSize (format dVal).chars
    .ok ⟨b.data.take b.cur ++ written,b.cur + nLength⟩
  else .ok b

def reset (b : FixedBuffer) : FixedBuffer := { b with cur := 0 }

/-- DebugString stores a terminator at the cursor. -/
def debugString (b : FixedBuffer) : Except Halt (FixedBuffer × List Char) := do
  let rest ← put (b.data.drop b.cur)
  let data := b.data.take b.cur ++ terminator :: rest
  .ok (⟨data,b.cur⟩,data)

end FixedBuffer

variable (format : Float → CString)

/-- The inserters; a float is cast to a double. -/
def insertItem (b : FixedBuffer) : Item → Except Halt FixedBuffer
  | .bool bVal => b.append [if bVal then '1' else '0'] 1
  | .char cVal => b.append [cVal] 1
  | .integer t v => b.insert t v
  | .float fVal => b.insertDouble format fVal.toFloat
  | .double dVal => b.insertDouble format dVal
  | .pointer pVoid => b.insertPointer pVoid
  | .cString pCVal => b.append pCVal.chars (asInt pCVal.strlen)
  | .sized val => b.append val.pStr.chars (asInt val.unLength)
  | .string rStr => b.append rStr (asInt rStr.length)
  | .append pStrData => b.append pStrData (asInt pStrData.length)

inductive Call where
  | insert (item : Item)
  | resetBuffer

def step (b : FixedBuffer) : Call → Except Halt FixedBuffer
  | .insert item => insertItem format b item
  | .resetBuffer => .ok b.reset

/-- A new stream has its cursor at the front of memory that nobody has written. -/
def machine : Machine FixedBuffer Call Halt := ⟨fun b => b.data.length = smallBuffer ∧ b.cur = 0,step format⟩

theorem T.new_ok {mem : List Char} {pStr : CString} (h : CString.ofMemory mem = .ok pStr) {n : Nat} (hn : n < 2 ^ 64)
    (hlen : pStr.strlen = n) : ∃ val : T, T.new mem n = .ok val ∧ val.pStr = pStr := by
  have hcast : ((n : Int) % 2 ^ 64).toNat = n := by omega
  exact ⟨⟨pStr,n,hlen⟩,by simp only [T.new,h,ok_bind,hcast,hlen,dif_pos],rfl⟩

theorem T.new_error {mem : List Char} {pStr : CString} (h : CString.ofMemory mem = .ok pStr) {n : Nat} (hn : n < 2 ^ 64)
    (hlen : pStr.strlen ≠ n) : T.new mem n = .error (.assertion "strlen(pStr) == m_unLength") := by
  have hcast : ((n : Int) % 2 ^ 64).toNat = n := by omega
  simp only [T.new,h,ok_bind,hcast,dif_neg hlen]

/-! What the stream is for. -/

/-- The complete rendering of an item. -/
def render : Item → List Char
  | .bool bVal => [if bVal then '1' else '0']
  | .char cVal => [cVal]
  | .integer t v => integerNumeral 10 (t.val v)
  | .float fVal => (format fVal.toFloat).chars
  | .double dVal => (format dVal).chars
  | .pointer pVoid => '0' :: 'x' :: integerNumeral 16 pVoid.toNat
  | .cString pCVal => pCVal.chars
  | .sized val => val.pStr.chars
  | .string rStr | .append rStr => rStr

/-- The room that an item asks for. -/
def room (item : Item) : Nat :=
  match item with
  | .integer _ _ => maxNumericSize + 1
  | .float _ | .double _ | .pointer _ => maxNumericSize
  | item => (render format item).length + 1

/-- The text grows by a whole rendering, or not at all. -/
def fit (text : List Char) : Call → List Char
  | .insert item => if text.length + room format item ≤ smallBuffer then text ++ render format item else text
  | .resetBuffer => []

/-- The items since the stream was last emptied. -/
def sinceReset (calls : List Call) : List Item :=
  calls.foldl (fun items call => match call with
    | .insert item => items ++ [item]
    | .resetBuffer => []) []

/-- An item's length is an int. -/
def Item.Small (item : Item) : Prop := (render format item).length < 2 ^ 31

/-- The int of an item's length is not negative. -/
def Item.Counted (item : Item) : Prop := 0 ≤ asInt (render format item).length

/-- snprintf's text of a double leaves room for its terminator. -/
def Short : Prop := ∀ dVal, (format dVal).strlen < maxNumericSize

variable {format}

/-! One item. -/

theorem asInt_of_lt {n : Nat} (h : n < 2 ^ 31) : asInt n = n := by
  apply Int.bmod_eq_of_le
  · norm_num
  · norm_num
    omega

namespace FixedBuffer
variable {b : FixedBuffer}

theorem append_grows (h : b.WF) (s : List Char) :
    if b.cur + (s.length + 1) ≤ b.data.length then ∃ b', b.append s s.length = .ok b' ∧ b.Grown b' s
    else b.append s s.length = .ok b := by
  have hcur : b.cur ≤ b.data.length := h
  rw [append,getAvail]
  split
  · rename_i hfits
    have hlt : (s.length : Int) < b.data.length - b.cur := by omega
    have hmem : 0 ≤ (s.length : Int) ∧ (s.length : Int) ≤ s.length ∧ (b.cur + s.length : Int) ≤ b.data.length := by omega
    refine ⟨_,?_,grown_write h s (b.data.drop (b.cur + s.length)) ?_⟩
    · simp only [if_pos hlt,ensure_of _ hmem,ok_bind,Int.toNat_natCast,List.take_length]
    · rw [List.length_drop]
      omega
  · rename_i hfull
    rw [if_neg (by omega)]

theorem append_string (h : b.WF) (s : List Char) (hs : s.length < 2 ^ 31) :
    if b.cur + (s.length + 1) ≤ b.data.length then ∃ b', b.append s (asInt s.length) = .ok b' ∧ b.Grown b' s
    else b.append s (asInt s.length) = .ok b := by
  rw [asInt_of_lt hs]
  exact append_grows h s

theorem insertDouble_grows (hshort : Short format) (h : b.WF) (dVal : Float) :
    if b.cur + maxNumericSize ≤ b.data.length then
      ∃ b', b.insertDouble format dVal = .ok b' ∧ b.Grown b' (format dVal).chars
    else b.insertDouble format dVal = .ok b := by
  have hcur : b.cur ≤ b.data.length := h
  have hlen : (format dVal).chars.length < maxNumericSize := hshort dVal
  have hwhole : (format dVal).chars.take (maxNumericSize - 1) = (format dVal).chars := by
    rw [List.take_of_length_le]
    omega
  rw [insertDouble,getAvail]
  split
  · rename_i hfits
    have hroom : (maxNumericSize : Int) ≤ b.data.length - b.cur := by omega
    have hprint := @snprintf_ok (b.data.drop b.cur) maxNumericSize (format dVal).chars (by decide)
      (by rw [hwhole,List.length_drop]; omega)
    rw [hwhole] at hprint
    refine ⟨_,?_,grown_write h (format dVal).chars
      (terminator :: (b.data.drop b.cur).drop ((format dVal).chars.length + 1)) ?_⟩
    · rw [if_pos hroom,hprint,ok_bind]
    · rw [List.length_cons,List.length_drop,List.length_drop]
      omega
  · rename_i hfull
    rw [if_neg (by omega)]

end FixedBuffer

theorem render_lt_room (hshort : Short format) (item : Item) : (render format item).length < room format item := by
  cases item with
  | integer t v =>
    have hlen := length_integerNumeral_le (b := 10) (by decide) (k := 20) (by decide) (natAbs_val_lt_pow t v)
    simp only [render,room,maxNumericSize]
    omega
  | pointer v =>
    have hlen := length_integerNumeral_le (b := 16) (by decide) (k := 16) (by decide) (v := v.toNat) v.isLt
    simp only [render,room,maxNumericSize,List.length_cons]
    omega
  | float fVal => exact hshort _
  | double dVal => exact hshort _
  | _ => exact Nat.lt_succ_self _

/-- An item is written whole where the room it asks for is left, and nowhere else. -/
theorem insertItem_grows (hshort : Short format) {b : FixedBuffer} (h : b.WF) {item : Item} (hs : item.Small format) :
    if b.cur + room format item ≤ b.data.length then
      ∃ b', insertItem format b item = .ok b' ∧ b.Grown b' (render format item)
    else insertItem format b item = .ok b := by
  have hcur : b.cur ≤ b.data.length := h
  cases item with
  | bool bVal => exact FixedBuffer.append_grows h [if bVal then '1' else '0']
  | char cVal => exact FixedBuffer.append_grows h [cVal]
  | integer t v =>
    have hgrows := FixedBuffer.insert_grows h t v
    have havail : (maxNumericSize : Int) < b.getAvail ↔ b.cur + (maxNumericSize + 1) ≤ b.data.length := by
      rw [FixedBuffer.getAvail]
      omega
    simp only [havail] at hgrows
    exact hgrows
  | float fVal => exact FixedBuffer.insertDouble_grows hshort h _
  | double dVal => exact FixedBuffer.insertDouble_grows hshort h _
  | pointer v =>
    have hgrows := FixedBuffer.insertPointer_grows h v
    have havail : (maxNumericSize : Int) ≤ b.getAvail ↔ b.cur + maxNumericSize ≤ b.data.length := by
      rw [FixedBuffer.getAvail]
      omega
    simp only [havail] at hgrows
    exact hgrows
  | cString pCVal => exact FixedBuffer.append_string h pCVal.chars hs
  | sized val =>
    obtain ⟨pStr,-,rfl⟩ := val
    exact FixedBuffer.append_string h pStr.chars hs
  | string rStr => exact FixedBuffer.append_string h rStr hs
  | append pStrData => exact FixedBuffer.append_string h pStrData hs

/-! Strings of any length: what Append gets of a string is the front that the int counts. -/

theorem asInt_lt (n : Nat) : asInt n < 2 ^ 31 := Int.bmod_lt (by decide)

theorem asInt_le (n : Nat) : asInt n ≤ n := by
  have hlt := asInt_lt n
  by_cases h : n < 2 ^ 31
  · exact (asInt_of_lt h).le
  · omega

/-- The item that an item is to Append. -/
def Item.counted : Item → Item
  | .cString pCVal => .cString (pCVal.take (asInt pCVal.strlen).toNat)
  | .sized val => .cString (val.pStr.take (asInt val.unLength).toNat)
  | .string rStr => .string (rStr.take (asInt rStr.length).toNat)
  | .append pStrData => .append (pStrData.take (asInt pStrData.length).toNat)
  | item => item

theorem FixedBuffer.append_counted {b : FixedBuffer} (h : b.WF) (s : List Char) :
    b.append s (asInt s.length) = if 0 ≤ asInt s.length then
      b.append (s.take (asInt s.length).toNat) (asInt (s.take (asInt s.length).toNat).length) else .error .outOfBounds := by
  have hle := asInt_le s.length
  have hlt := asInt_lt s.length
  have hcur : b.cur ≤ b.data.length := h
  generalize asInt s.length = n at hle hlt
  split
  · rename_i hpos
    have hlen : (s.take n.toNat).length = n.toNat := by
      rw [List.length_take]
      omega
    have hn : asInt (s.take n.toNat).length = n := by
      rw [hlen,asInt_of_lt (by omega)]
      omega
    have hcast : n ≤ (s.take n.toNat).length ↔ n ≤ s.length := by omega
    rw [hn]
    simp only [append,hcast,List.take_take,min_self]
  · rename_i hneg
    have hroom : n < b.getAvail := by
      rw [getAvail]
      omega
    rw [append,if_pos hroom,ensure,if_neg fun hmem => hneg hmem.1]
    rfl

theorem insertItem_counted (hshort : Short format) {b : FixedBuffer} (h : b.WF) (item : Item) :
    insertItem format b item =
      if 0 ≤ asInt (render format item).length then insertItem format b item.counted else .error .outOfBounds := by
  have hkept (hcounted : item.counted = item) (hlen : (render format item).length < 2 ^ 31) : insertItem format b item =
      if 0 ≤ asInt (render format item).length then insertItem format b item.counted else .error .outOfBounds := by
    rw [asInt_of_lt hlen,if_pos (Int.natCast_nonneg _),hcounted]
  have hroom := render_lt_room hshort item
  cases item with
  | bool bVal => exact hkept rfl (by decide : 1 < 2 ^ 31)
  | char cVal => exact hkept rfl (by decide : 1 < 2 ^ 31)
  | integer t v => exact hkept rfl (hroom.trans (by decide : maxNumericSize + 1 < 2 ^ 31))
  | float fVal => exact hkept rfl (hroom.trans (by decide : maxNumericSize < 2 ^ 31))
  | double dVal => exact hkept rfl (hroom.trans (by decide : maxNumericSize < 2 ^ 31))
  | pointer v => exact hkept rfl (hroom.trans (by decide : maxNumericSize < 2 ^ 31))
  | cString pCVal =>
    simp only [insertItem,Item.counted,render,CString.strlen,CString.take]
    exact FixedBuffer.append_counted h pCVal.chars
  | sized val =>
    obtain ⟨pStr,-,rfl⟩ := val
    simp only [insertItem,Item.counted,render,CString.strlen,CString.take]
    exact FixedBuffer.append_counted h pStr.chars
  | string rStr =>
    simp only [insertItem,Item.counted,render]
    exact FixedBuffer.append_counted h rStr
  | append pStrData =>
    simp only [insertItem,Item.counted,render]
    exact FixedBuffer.append_counted h pStrData

/-- What is counted of a string is a front of it. -/
theorem render_counted (item : Item) : render format item.counted = render format item ∨
    render format item.counted = (render format item).take (asInt (render format item).length).toNat := by
  cases item with
  | cString pCVal =>
    right
    simp only [Item.counted,render,CString.strlen,CString.take]
  | sized val =>
    obtain ⟨pStr,-,rfl⟩ := val
    right
    simp only [Item.counted,render,CString.strlen,CString.take]
  | string rStr => exact .inr rfl
  | append pStrData => exact .inr rfl
  | _ => exact .inl rfl

theorem mem_render_counted {item : Item} {c : Char} (h : c ∈ render format item.counted) : c ∈ render format item := by
  rcases render_counted item with heq | heq
  · rwa [heq] at h
  · rw [heq] at h
    exact List.mem_of_mem_take h

theorem small_counted (hshort : Short format) (item : Item) : item.counted.Small format := by
  have hfront (s : List Char) : (s.take (asInt s.length).toNat).length < 2 ^ 31 := by
    have hlt := asInt_lt s.length
    rw [List.length_take]
    omega
  have hroom := render_lt_room hshort item
  cases item with
  | bool bVal => exact (by decide : 1 < 2 ^ 31)
  | char cVal => exact (by decide : 1 < 2 ^ 31)
  | integer t v => exact hroom.trans (by decide : maxNumericSize + 1 < 2 ^ 31)
  | float fVal => exact hroom.trans (by decide : maxNumericSize < 2 ^ 31)
  | double dVal => exact hroom.trans (by decide : maxNumericSize < 2 ^ 31)
  | pointer v => exact hroom.trans (by decide : maxNumericSize < 2 ^ 31)
  | cString pCVal =>
    simp only [Item.Small,Item.counted,render,CString.strlen,CString.take]
    exact hfront pCVal.chars
  | sized val =>
    obtain ⟨pStr,-,rfl⟩ := val
    simp only [Item.Small,Item.counted,render,CString.strlen,CString.take]
    exact hfront pStr.chars
  | string rStr => exact hfront rStr
  | append pStrData => exact hfront pStrData

/-! Runs. -/

/-- A stream in use: there is room for a terminator at the cursor. -/
structure Open (b : FixedBuffer) : Prop where
  length : b.data.length = smallBuffer
  cur : b.cur < smallBuffer

variable {b : FixedBuffer}

theorem Open.wf (h : Open b) : b.WF := by
  rw [FixedBuffer.WF,h.length]
  exact h.cur.le

theorem Open.asString_length (h : Open b) : b.asString.length = b.cur :=
  List.length_take_of_le h.wf

theorem Open.debugString (h : Open b) : ∃ out, b.debugString = .ok out := by
  have hput : put (b.data.drop b.cur) = .ok (b.data.drop (b.cur + 1)) := by
    apply put_drop
    rw [h.length]
    exact h.cur
  exact ⟨_,by rw [FixedBuffer.debugString,hput,ok_bind]⟩

/-- A call on the stream is what it is for on its text. -/
theorem step_fit (hshort : Short format) (h : Open b) {call : Call} (hs : ∀ item, call = .insert item → item.Small format) :
    ∃ b', step format b call = .ok b' ∧ Open b' ∧ b'.asString = fit format b.asString call := by
  cases call with
  | insert item =>
    have hgrows := insertItem_grows hshort h.wf (hs item rfl)
    rw [h.length] at hgrows
    simp only [step,fit,h.asString_length]
    split at hgrows
    · rename_i hroom
      obtain ⟨b',he,hg⟩ := hgrows
      have hlt := render_lt_room hshort item
      refine ⟨b',he,⟨hg.length.trans h.length,?_⟩,?_⟩
      · rw [hg.cur]
        omega
      · rw [if_pos hroom,hg.text]
    · rename_i hroom
      exact ⟨b,hgrows,h,by rw [if_neg hroom]⟩
  | resetBuffer => exact ⟨b.reset,rfl,⟨h.length,Nat.zero_lt_succ _⟩,rfl⟩

/-- A run writes exactly the text that the items add up to. -/
theorem run_fit (hshort : Short format) (h : Open b) {calls : List Call}
    (hs : ∀ item, .insert item ∈ calls → item.Small format) :
    ∃ b', (machine format).run b calls = .ok b' ∧ Open b' ∧ b'.asString = calls.foldl (fit format) b.asString := by
  induction calls generalizing b with
  | nil => exact ⟨b,rfl,h,rfl⟩
  | cons call calls ih =>
    obtain ⟨b₁,he₁,hopen₁,htext₁⟩ := @step_fit format _ hshort h call
      fun item hi => hs item (by rw [hi]; exact List.mem_cons_self)
    obtain ⟨b',hrun,hopen,htext⟩ := ih hopen₁ fun item hi => hs item (List.mem_cons_of_mem _ hi)
    refine ⟨b',?_,hopen,?_⟩
    · rw [Machine.run_cons]
      change (step format b call >>= _) = _
      rw [he₁,ok_bind,hrun]
    · rw [htext,htext₁,List.foldl_cons]

/-- The text is made of whole items, in order. -/
theorem fit_sublist (calls : List Call) :
    ∃ kept : List Item, kept.Sublist (sinceReset calls) ∧ calls.foldl (fit format) [] = (kept.map (render format)).flatten := by
  induction calls using List.reverseRecOn with
  | nil => exact ⟨[],List.Sublist.refl _,rfl⟩
  | append_singleton calls call ih =>
    obtain ⟨kept,hsub,htext⟩ := ih
    rw [List.foldl_append,sinceReset,List.foldl_append,htext]
    cases call with
    | insert item =>
      simp only [List.foldl_cons,List.foldl_nil,fit]
      split
      · exact ⟨kept ++ [item],hsub.append_right [item],by simp⟩
      · exact ⟨kept,hsub.trans (List.sublist_append_left _ _),rfl⟩
    | resetBuffer => exact ⟨[],List.Sublist.refl _,rfl⟩

/-- For every sequence of insertions and resets on a new stream: nothing is written outside
the buffer, the cursor stays in front of its end, with room there for a terminator, and the
content is made of whole renderings of some of the items inserted since the last reset, in order. -/
theorem stream_whole_items (hshort : Short format) (hinit : (machine format).Init b) (calls : List Call)
    (hs : ∀ item, .insert item ∈ calls → item.Small format) :
    ∃ b', (machine format).run b calls = .ok b' ∧ b'.data.length = smallBuffer ∧ b'.cur < smallBuffer ∧
      (∃ out, b'.debugString = .ok out) ∧
      ∃ kept : List Item, kept.Sublist (sinceReset calls) ∧ b'.asString = (kept.map (render format)).flatten := by
  obtain ⟨hlength,hcur⟩ := hinit
  have hopen : Open b := ⟨hlength,by rw [hcur]; decide⟩
  obtain ⟨b',hrun,hopen',htext⟩ := run_fit hshort hopen hs
  obtain ⟨kept,hsub,hkept⟩ := @fit_sublist format calls
  have hempty : b.asString = [] := by
    rw [FixedBuffer.asString,hcur]
    rfl
  rw [hempty] at htext
  exact ⟨b',hrun,hopen'.length,hopen'.cur,hopen'.debugString,kept,hsub,htext.trans hkept⟩

/-- A long string, a half, and a character, of which the half finds no room. -/
def nearTheEnd : List Call :=
  [.insert (.char '#'),.resetBuffer,.insert (.string (List.replicate 3980 'x')),.insert (.double 0.5),.insert (.char 'y')]

theorem stream_whole_items_nearTheEnd :
    let half : CString := ⟨['0','.','5'],by decide⟩
    let b : FixedBuffer := ⟨List.replicate 4000 terminator,0⟩
    ∃ b', (machine fun _ => half).run b nearTheEnd = .ok b' ∧ b'.cur < smallBuffer ∧
      b'.asString = List.replicate 3980 'x' ++ ['y'] ∧
      ∃ kept : List Item, kept.Sublist (sinceReset nearTheEnd) ∧ b'.asString = (kept.map (render fun _ => half)).flatten := by
  intro half b
  have hsmall : ∀ item, .insert item ∈ nearTheEnd → item.Small fun _ => half := by
    intro item hi
    simp only [nearTheEnd,List.mem_cons,Call.insert.injEq,reduceCtorEq,List.not_mem_nil,or_false,false_or] at hi
    rcases hi with rfl | rfl | rfl | rfl
    · exact (by decide : 1 < 2 ^ 31)
    · change (List.replicate 3980 'x').length < 2 ^ 31
      rw [List.length_replicate]
      decide
    · exact (by decide : 3 < 2 ^ 31)
    · exact (by decide : 1 < 2 ^ 31)
  obtain ⟨b',hrun,-,hcur,-,kept,hsub,htext⟩ := @stream_whole_items (fun _ => half) b (fun _ => (by decide : 3 < 32))
    ⟨List.length_replicate,rfl⟩ nearTheEnd hsmall
  have hvalue : ((machine fun _ => half).run b nearTheEnd).toOption.map FixedBuffer.asString =
      some (List.replicate 3980 'x' ++ ['y']) := by decide +kernel
  rw [hrun] at hvalue
  exact ⟨b',hrun,hcur,Option.some.inj hvalue,kept,hsub,htext⟩

end LinuxServer.Logging.LogStream
