import LinuxServer.Lib.Machine
import Mathlib.Data.List.Basic

/-! A stored result set, read row by row. Every record looks its columns up by the names of
the fields, which it collects itself; but for their lengths all records share one array. -/
namespace LinuxServer.Db.DBRecordSet
open LinuxServer.Lib

/-- The bytes of a column, if it is not NULL. -/
abbrev Column := Option (List UInt8)

def Column.length (c : Column) : Nat := (c.map List.length).getD 0

/-- What the server has sent. The number of fields is an unsigned int, that of rows a my_ulonglong. -/
structure Result where
  names : List String
  rows : List (List Column)
  width : ∀ row ∈ rows, row.length = names.length
  fields_countable : names.length < 2 ^ 32
  rows_countable : rows.length < 2 ^ 64

abbrev Addr := Nat

/-- The functions of the client library that are called with a MYSQL_RES. A call can change
it; lengthAt reads the memory behind a pointer to lengths, as it is after the calls so far. -/
structure Client (MysqlRes : Type) where
  mysqlNumRows : MysqlRes → Nat
  mysqlNumFields : MysqlRes → Nat
  mysqlFetchRow : MysqlRes → Option (List Column) × MysqlRes
  mysqlFetchLengths : MysqlRes → Option Addr × MysqlRes
  mysqlFieldSeek : MysqlRes → Nat → MysqlRes
  mysqlFetchField : MysqlRes → Option String × MysqlRes
  lengthAt : MysqlRes → Addr → Nat → Nat

/-- Where a stored result stands: the rows and the fields that are not fetched yet, the
current row, and whether its lengths have been asked for. -/
structure Standing where
  rows : List (List Column)
  current : Option (List Column)
  measured : Bool
  fields : List String

/-- As mysql_store_result leaves it. -/
def Result.stored (r : Result) : Standing := ⟨r.rows,none,false,r.names⟩

/-- What is documented of the functions on a stored result. The lengths are in one array of the
result, and valid as long as the row is the current one. -/
structure Client.Documented {MysqlRes : Type} (client : Client MysqlRes) (r : Result) (standing : MysqlRes → Standing)
    (lengths : Addr) : Prop where
  num_rows : ∀ res, client.mysqlNumRows res = r.rows.length
  num_fields : ∀ res, client.mysqlNumFields res = r.names.length
  fetch_row : ∀ res, (client.mysqlFetchRow res).1 = (standing res).rows.head?
  after_fetch_row : ∀ res, standing (client.mysqlFetchRow res).2 = { standing res with
    rows := (standing res).rows.tail, current := (standing res).rows.head?, measured := false }
  fetch_lengths : ∀ res, (client.mysqlFetchLengths res).1 = (standing res).current.map fun _ => lengths
  after_fetch_lengths : ∀ res, (standing res).current.isSome = true →
    standing (client.mysqlFetchLengths res).2 = { standing res with measured := true }
  after_field_seek : ∀ res offset, standing (client.mysqlFieldSeek res offset) = { standing res with fields := r.names.drop offset }
  fetch_field : ∀ res, (client.mysqlFetchField res).1 = (standing res).fields.head?
  after_fetch_field : ∀ res, standing (client.mysqlFetchField res).2 = { standing res with fields := (standing res).fields.tail }
  length_at : ∀ res row i column, (standing res).current = some row → (standing res).measured = true → row[i]? = some column →
    client.lengthAt res lengths i = column.length

/-- m_pRes is the result of the set. -/
structure DBRecord where
  row : List Column
  pFieldsLength : Addr
  mpNameIdx : String → Option Nat

section Records
variable {MysqlRes : Type} (client : Client MysqlRes)

/-- The loop, with the map filled so far. -/
def fillLoop : Nat → MysqlRes → (String → Option Nat) → Nat → Except Halt (MysqlRes × (String → Option Nat))
  | 0, _, _, _ => .error .outOfFuel
  | fuel+1, res, mp, unIdx =>
    match client.mysqlFetchField res with
    | (some name,res) => fillLoop fuel res (Function.update mp name (some unIdx)) ((unIdx + 1) % 2 ^ 32)
    | (none,res) => .ok (res,mp)

def fillFieldsNameIndxMap (res : MysqlRes) : Except Halt (MysqlRes × (String → Option Nat)) :=
  fillLoop client (client.mysqlNumFields res + 1) (client.mysqlFieldSeek res 0) (fun _ => none) 0

/-- The constructor. -/
def DBRecord.new (res : MysqlRes) (row : List Column) : Except Halt (MysqlRes × DBRecord) :=
  match client.mysqlFetchLengths res with
  | (none,_) => .error (.assertion "NULL != m_pFieldsLength")
  | (some pFieldsLength,res) => do
    let (res,mp) ← fillFieldsNameIndxMap client res
    .ok (res,⟨row,pFieldsLength,mp⟩)

/-- The records returned so far, all of them still held, and the calls. -/
structure State (MysqlRes : Type) where
  res : MysqlRes
  records : List DBRecord
  calls : Nat

namespace State
variable (s : State MysqlRes)

/-- An unsigned int. -/
def getRecordNum : Nat := client.mysqlNumRows s.res % 2 ^ 32
def getFieldCount : Nat := client.mysqlNumFields s.res

/-- GetNextRecord, with what it returns. -/
def getNextRecord : Except Halt (Option DBRecord × State MysqlRes) :=
  match client.mysqlFetchRow s.res with
  | (none,res) => .ok (none,{ s with res := res, calls := s.calls + 1 })
  | (some row,res) => do
    let (res,record) ← DBRecord.new client res row
    .ok (some record,⟨res,s.records ++ [record],s.calls + 1⟩)

def getFieldValueByIdx (r : DBRecord) (unIndex : Nat) : Column :=
  if unIndex ≥ s.getFieldCount client then none else (r.row[unIndex]?).join

/-- The name is not NULL, as the function asserts. -/
def getFiledValueByName (r : DBRecord) (pFiledName : String) : Column :=
  match r.mpNameIdx pFiledName with
  | some unIndex => s.getFieldValueByIdx client r unIndex
  | none => none

/-- An unsigned long as an int. A missing field has the length of NULL, which is zero. -/
def getFieldLengthByIdx (r : DBRecord) (unIndex : Nat) : Int :=
  if unIndex ≥ s.getFieldCount client then 0 else (BitVec.ofNat 32 (client.lengthAt s.res r.pFieldsLength unIndex)).toInt

def getFiledLengthByName (r : DBRecord) (pFiledName : String) : Int :=
  match r.mpNameIdx pFiledName with
  | some unIndex => s.getFieldLengthByIdx client r unIndex
  | none => 0

end State

def step (s : State MysqlRes) (_ : Unit) : Except Halt (State MysqlRes) := (·.2) <$> s.getNextRecord client

/-- It starts from any result that stands as one stored. -/
def machine (r : Result) (standing : MysqlRes → Standing) : Machine (State MysqlRes) Unit Halt :=
  ⟨fun s => standing s.res = r.stored ∧ s.records = [] ∧ s.calls = 0,step client⟩

end Records

/-- The last field of a name. -/
def IsLast (names : List String) (name : String) (i : Nat) : Prop :=
  names[i]? = some name ∧ ∀ j, i < j → names[j]? ≠ some name

/-- The map has each name with its last field, and no other names. -/
def Indexes (names : List String) (mp : String → Option Nat) : Prop :=
  ∀ name i, mp name = some i ↔ IsLast names name i

section
variable {names : List String} {mp : String → Option Nat}

theorem indexes_nil : Indexes [] fun _ => none := by
  intro name i
  constructor
  · intro h
    cases h
  · rintro ⟨h,-⟩
    cases h

/-- A further field takes its name over. -/
theorem Indexes.snoc (h : Indexes names mp) (name : String) :
    Indexes (names ++ [name]) (Function.update mp name (some names.length)) := by
  intro other i
  have hnew : (names ++ [name])[names.length]? = some name := List.getElem?_concat_length
  by_cases hother : other = name
  · rw [hother,Function.update_self,Option.some.injEq]
    constructor
    · rintro rfl
      refine ⟨hnew,fun j hj he => ?_⟩
      rw [List.getElem?_eq_none (by rw [List.length_append]; exact hj)] at he
      cases he
    · rintro ⟨hi,hlater⟩
      by_contra hne
      have hlt : i < (names ++ [name]).length := (List.getElem?_eq_some_iff.mp hi).1
      rw [List.length_append,List.length_singleton] at hlt
      exact hlater names.length (by omega) hnew
  · rw [Function.update_of_ne hother,h]
    have hsame : ∀ j : Nat, (names ++ [name])[j]? = some other ↔ names[j]? = some other := by
      intro j
      rcases lt_trichotomy j names.length with hj | rfl | hj
      · rw [List.getElem?_append_left hj]
      · rw [hnew,List.getElem?_eq_none le_rfl]
        simp [Ne.symm hother]
      · rw [List.getElem?_eq_none (by rw [List.length_append]; exact hj),List.getElem?_eq_none hj.le]
    simp only [IsLast,hsame,ne_eq]

/-- The loop goes on from the fields it has read. -/
private theorem fillLoop_ok {MysqlRes : Type} {client : Client MysqlRes} {r : Result} {standing : MysqlRes → Standing} {lengths : Addr}
    (hdoc : client.Documented r standing lengths) {res : MysqlRes} {done rest : List String} (hnames : r.names = done ++ rest)
    (hfields : (standing res).fields = rest) (h : Indexes done mp) {fuel : Nat} (hfuel : rest.length < fuel) :
    ∃ res' mp', fillLoop client fuel res mp done.length = .ok (res',mp') ∧ Indexes r.names mp' ∧
      standing res' = { standing res with fields := [] } := by
  induction rest generalizing res done mp fuel with
  | nil =>
    obtain ⟨fuel,rfl⟩ := Nat.exists_eq_succ_of_ne_zero (Nat.ne_zero_of_lt hfuel)
    have hfetch := hdoc.fetch_field res
    have hafter := hdoc.after_fetch_field res
    rw [hfields] at hfetch hafter
    rw [List.append_nil] at hnames
    refine ⟨(client.mysqlFetchField res).2,mp,?_,by rw [hnames]; exact h,hafter⟩
    rw [fillLoop,show client.mysqlFetchField res = (none,(client.mysqlFetchField res).2) from Prod.ext hfetch rfl]
  | cons name rest ih =>
    obtain ⟨fuel,rfl⟩ := Nat.exists_eq_succ_of_ne_zero (Nat.ne_zero_of_lt hfuel)
    have hfetch := hdoc.fetch_field res
    have hafter := hdoc.after_fetch_field res
    rw [hfields] at hfetch hafter
    have hlength : (done ++ [name]).length = done.length + 1 := List.length_append
    have hlt : done.length + 1 < 2 ^ 32 := by
      have hcount := r.fields_countable
      rw [hnames,List.length_append,List.length_cons] at hcount
      omega
    obtain ⟨res',mp',hrun,hindexes,hstanding⟩ := @ih (Function.update mp name (some done.length)) (client.mysqlFetchField res).2
      (done ++ [name]) (by simpa using hnames) (by rw [hafter]; rfl) (h.snoc name) fuel (by simpa using hfuel)
    refine ⟨res',mp',?_,hindexes,by rw [hstanding,hafter]⟩
    rw [hlength] at hrun
    rw [fillLoop,show client.mysqlFetchField res = (some name,(client.mysqlFetchField res).2) from Prod.ext hfetch rfl]
    simp only [Nat.mod_eq_of_lt hlt]
    exact hrun

end

section Runs
variable {MysqlRes : Type} {client : Client MysqlRes} {r : Result} {standing : MysqlRes → Standing} {lengths : Addr}
variable {s t : State MysqlRes}

/-- A record of the current row. -/
private theorem new_ok (hdoc : client.Documented r standing lengths) {res : MysqlRes} {row : List Column}
    (hcurrent : (standing res).current = some row) :
    ∃ res' mp, DBRecord.new client res row = .ok (res',⟨row,lengths,mp⟩) ∧ Indexes r.names mp ∧
      standing res' = { standing res with measured := true, fields := [] } := by
  have hfetch := hdoc.fetch_lengths res
  have hafter := hdoc.after_fetch_lengths res (by rw [hcurrent]; rfl)
  have hseek := hdoc.after_field_seek (client.mysqlFetchLengths res).2 0
  rw [hcurrent,Option.map_some] at hfetch
  have hfuel : r.names.length < client.mysqlNumFields (client.mysqlFetchLengths res).2 + 1 := by
    rw [hdoc.num_fields]
    exact Nat.lt_succ_self _
  obtain ⟨res',mp,hfill,hindexes,hstanding⟩ := fillLoop_ok hdoc rfl (by rw [hseek]; rfl) indexes_nil hfuel
  refine ⟨res',mp,?_,hindexes,by rw [hstanding,hseek,hafter]⟩
  rw [DBRecord.new,show client.mysqlFetchLengths res = (some lengths,(client.mysqlFetchLengths res).2) from Prod.ext hfetch rfl]
  rw [List.length_nil] at hfill
  simp only [fillFieldsNameIndxMap,hfill,ok_bind]

/-- The records are the rows fetched, and while the last of them is the current row the array
has its lengths. -/
structure Inv (r : Result) (standing : MysqlRes → Standing) (lengths : Addr) (s : State MysqlRes) : Prop where
  left : (standing s.res).rows = r.rows.drop s.calls
  rows : s.records.map DBRecord.row = r.rows.take s.calls
  records : ∀ record ∈ s.records, record.pFieldsLength = lengths ∧ Indexes r.names record.mpNameIdx
  current : s.calls ≤ r.rows.length → ∀ latest, s.records.getLast? = some latest →
    (standing s.res).current = some latest.row ∧ (standing s.res).measured = true

private theorem Inv.next (hdoc : client.Documented r standing lengths) (h : Inv r standing lengths s) :
    ∃ record t, s.getNextRecord client = .ok (record,t) ∧ Inv r standing lengths t ∧ t.calls = s.calls + 1 ∧
      record.map DBRecord.row = r.rows[s.calls]? := by
  have hfetch := hdoc.fetch_row s.res
  have hafter := hdoc.after_fetch_row s.res
  cases hleft : (standing s.res).rows with
  | nil =>
    have hend : r.rows.length ≤ s.calls := List.drop_eq_nil_iff.mp (h.left.symm.trans hleft)
    rw [hleft] at hfetch hafter
    refine ⟨none,{ s with res := (client.mysqlFetchRow s.res).2, calls := s.calls + 1 },?_,⟨?_,?_,h.records,fun hle => ?_⟩,rfl,
      (List.getElem?_eq_none hend).symm⟩
    · rw [State.getNextRecord,show client.mysqlFetchRow s.res = (none,(client.mysqlFetchRow s.res).2) from Prod.ext hfetch rfl]
    · rw [hafter,List.drop_eq_nil_iff.mpr (hend.trans (Nat.le_succ _)),List.tail_nil]
    · rw [h.rows,List.take_of_length_le hend,List.take_of_length_le (hend.trans (Nat.le_succ _))]
    · exact absurd (hend.trans_lt hle) (Nat.lt_irrefl _)
  | cons row rest =>
    have hdrop : r.rows.drop s.calls = row :: rest := h.left.symm.trans hleft
    have hrow : r.rows[s.calls]? = some row := by rw [← List.head?_drop,hdrop,List.head?_cons]
    rw [hleft] at hfetch hafter
    obtain ⟨res,mp,hnew,hindexes,hstanding⟩ := new_ok hdoc (show (standing (client.mysqlFetchRow s.res).2).current = some row by rw [hafter]; rfl)
    rw [hafter] at hstanding
    refine ⟨some ⟨row,lengths,mp⟩,⟨res,s.records ++ [⟨row,lengths,mp⟩],s.calls + 1⟩,?_,⟨?_,?_,?_,fun _ latest hlatest => ?_⟩,rfl,hrow.symm⟩
    · rw [State.getNextRecord,show client.mysqlFetchRow s.res = (some row,(client.mysqlFetchRow s.res).2) from Prod.ext hfetch rfl]
      simp only [hnew,ok_bind]
    · rw [hstanding,← List.tail_drop,hdrop]
    · rw [List.map_append,h.rows,List.take_add_one,hrow]
      rfl
    · exact List.forall_mem_append.mpr ⟨h.records,List.forall_mem_singleton.mpr ⟨rfl,hindexes⟩⟩
    · rw [List.getLast?_concat] at hlatest
      cases hlatest
      rw [hstanding]
      exact ⟨rfl,rfl⟩

private theorem inv_reachable (hdoc : client.Documented r standing lengths) (h : (machine client r standing).Reachable s) :
    Inv r standing lengths s := by
  refine h.invariant (P := Inv r standing lengths) ?_ fun s a t hi hs => ?_
  · rintro ⟨res,records,calls⟩ ⟨hstored,rfl,rfl⟩
    exact ⟨congrArg Standing.rows hstored,rfl,fun record hrecord => (by cases hrecord),fun _ latest hlatest => by cases hlatest⟩
  · obtain ⟨record,u,hu,hinv,-⟩ := hi.next hdoc
    have hsame : (·.2) <$> s.getNextRecord client = .ok t := hs
    rw [hu] at hsame
    cases hsame
    exact hinv

private theorem fieldCount_eq (hdoc : client.Documented r standing lengths) : s.getFieldCount client = r.names.length :=
  hdoc.num_fields s.res

/-- A record has a column for every field. -/
private theorem Inv.column (h : Inv r standing lengths s) {record : DBRecord} (hrecord : record ∈ s.records) {i : Nat}
    (hi : i < r.names.length) : record.row[i]? = some (record.row[i]?).join := by
  have hrow : record.row ∈ r.rows := List.mem_of_mem_take (by rw [← h.rows]; exact List.mem_map_of_mem hrecord)
  have hlt : i < record.row.length := by rw [r.width _ hrow]; exact hi
  rw [List.getElem?_eq_getElem hlt]
  rfl

private theorem value_eq (hdoc : client.Documented r standing lengths) {record : DBRecord} {i : Nat} (hi : i < r.names.length) :
    s.getFieldValueByIdx client record i = (record.row[i]?).join :=
  if_neg (by rw [fieldCount_eq hdoc]; exact not_le.mpr hi)

/-- By name: the last field of the name, and nothing for a name that no field has. -/
private theorem Inv.byName (h : Inv r standing lengths s) {record : DBRecord} (hrecord : record ∈ s.records) (name : String) :
    (∀ i, IsLast r.names name i → s.getFiledValueByName client record name = s.getFieldValueByIdx client record i ∧
      s.getFiledLengthByName client record name = s.getFieldLengthByIdx client record i) ∧
    (name ∉ r.names → s.getFiledValueByName client record name = none ∧ s.getFiledLengthByName client record name = 0) := by
  obtain ⟨-,hindexes⟩ := h.records record hrecord
  refine ⟨fun i hlast => ?_,fun hname => ?_⟩
  · simp only [State.getFiledValueByName,State.getFiledLengthByName,(hindexes name i).mpr hlast,and_self]
  · have hnone : record.mpNameIdx name = none := by
      by_contra hne
      obtain ⟨i,hi⟩ := Option.ne_none_iff_exists'.mp hne
      exact hname (List.mem_of_getElem? ((hindexes name i).mp hi).1)
    simp only [State.getFiledValueByName,State.getFiledLengthByName,hnone,and_self]

/-- However many calls there have been: the records are the rows in order, and the next call
returns the next row or none; a record gives every column of its own row, by its index or
as the last of its name; but until a call has found the end, the lengths that it gives are
those of the latest record. -/
theorem records_are_rows (hdoc : client.Documented r standing lengths) (h : (machine client r standing).Reachable s) :
    s.records.map DBRecord.row = r.rows.take s.calls ∧ s.records.length = min s.calls r.rows.length ∧
    s.getRecordNum client = r.rows.length % 2 ^ 32 ∧
    (∃ record t, s.getNextRecord client = .ok (record,t) ∧ record.map DBRecord.row = r.rows[s.calls]?) ∧
    ∀ record ∈ s.records,
      (∀ i < r.names.length, (record.row[i]?) = some (s.getFieldValueByIdx client record i)) ∧
      (∀ i, r.names.length ≤ i → s.getFieldValueByIdx client record i = none ∧ s.getFieldLengthByIdx client record i = 0) ∧
      (∀ name i, IsLast r.names name i → s.getFiledValueByName client record name = s.getFieldValueByIdx client record i ∧
        s.getFiledLengthByName client record name = s.getFieldLengthByIdx client record i) ∧
      (∀ name, name ∉ r.names → s.getFiledValueByName client record name = none ∧ s.getFiledLengthByName client record name = 0) ∧
      (s.calls ≤ r.rows.length → ∀ latest, s.records.getLast? = some latest → ∀ i < r.names.length,
        s.getFieldLengthByIdx client record i = (BitVec.ofNat 32 (s.getFieldValueByIdx client latest i).length).toInt) := by
  have hi := inv_reachable hdoc h
  obtain ⟨record,t,hnext,-,-,hrow⟩ := hi.next hdoc
  have hcount : s.records.length = min s.calls r.rows.length := by
    rw [← List.length_map (f := DBRecord.row),hi.rows,List.length_take]
  refine ⟨hi.rows,hcount,by rw [State.getRecordNum,hdoc.num_rows],⟨record,t,hnext,hrow⟩,fun record hrecord => ⟨fun i hlt => ?_,fun i hge => ?_,
    fun name => (hi.byName hrecord name).1,fun name => (hi.byName hrecord name).2,fun hcalls latest hlatest i hlt => ?_⟩⟩
  · rw [value_eq hdoc hlt,← hi.column hrecord hlt]
  · have hbeyond : i ≥ s.getFieldCount client := by rw [fieldCount_eq hdoc]; exact hge
    exact ⟨if_pos hbeyond,if_pos hbeyond⟩
  · obtain ⟨hcurrent,hmeasured⟩ := hi.current hcalls latest hlatest
    have hin : ¬ i ≥ s.getFieldCount client := by rw [fieldCount_eq hdoc]; exact not_le.mpr hlt
    have hcolumn := hi.column (List.mem_of_getLast? hlatest) hlt
    rw [value_eq hdoc hlt,State.getFieldLengthByIdx,if_neg hin,(hi.records record hrecord).1,
      hdoc.length_at _ _ _ _ hcurrent hmeasured hcolumn]

end Runs

/-- A client that holds a result where it stands, with one array. -/
def Client.ofResult (r : Result) : Client Standing where
  mysqlNumRows _ := r.rows.length
  mysqlNumFields _ := r.names.length
  mysqlFetchRow st := (st.rows.head?,{ st with rows := st.rows.tail, current := st.rows.head?, measured := false })
  mysqlFetchLengths st := (st.current.map fun _ => 1,{ st with measured := st.current.isSome })
  mysqlFieldSeek st offset := { st with fields := r.names.drop offset }
  mysqlFetchField st := (st.fields.head?,{ st with fields := st.fields.tail })
  lengthAt st _ i := ((st.current.getD [])[i]?).elim 0 Column.length

theorem documented_ofResult (r : Result) : (Client.ofResult r).Documented r id 1 where
  num_rows _ := rfl
  num_fields _ := rfl
  fetch_row _ := rfl
  after_fetch_row _ := rfl
  fetch_lengths _ := rfl
  after_fetch_lengths st hcurrent := by
    simp only [id_eq] at hcurrent
    simp only [Client.ofResult,id_eq,hcurrent]
  after_field_seek _ _ := rfl
  fetch_field _ := rfl
  after_fetch_field _ := rfl
  length_at st row i column hcurrent _ hcolumn := by
    simp only [id_eq] at hcurrent
    simp only [Client.ofResult,hcurrent,Option.getD_some,hcolumn,Option.elim_some]

/-- Two fields of one name, and a second row with a NULL. -/
def twoRows : Result where
  names := ["id","name","id"]
  rows := [[some [49],some [97,98],some [50]],[some [51],none,some [52,53]]]
  width := by decide
  fields_countable := by decide
  rows_countable := by decide

/-- The first record's columns are its own, by name the last; its lengths are the second's. -/
theorem records_are_rows_two : ∃ s, (machine (Client.ofResult twoRows) twoRows id).Reachable s ∧ ∃ record ∈ s.records,
    s.getFiledValueByName (Client.ofResult twoRows) record "id" = some [50] ∧
    s.getFieldValueByIdx (Client.ofResult twoRows) record 1 = some [97,98] ∧
    s.getFieldLengthByIdx (Client.ofResult twoRows) record 1 = 0 := by
  have hinit : (machine (Client.ofResult twoRows) twoRows id).Init ⟨twoRows.stored,[],0⟩ := ⟨rfl,rfl,rfl⟩
  obtain ⟨s,hr,hcalls⟩ := (machine (Client.ofResult twoRows) twoRows id).exists_reachable hinit [(),()] State.calls (b := 2) (by decide +kernel)
  obtain ⟨hrows,-,-,-,hall⟩ := records_are_rows (documented_ofResult twoRows) hr
  rw [hcalls] at hrows
  obtain ⟨record,rest,hrecords,hrow,hrest⟩ := List.map_eq_cons_iff.mp hrows
  obtain ⟨latest,rest',rfl,hlatest,hnil⟩ := List.map_eq_cons_iff.mp hrest
  obtain rfl := List.map_eq_nil_iff.mp hnil
  have hfirst : record ∈ s.records := by rw [hrecords]; exact List.mem_cons_self
  have hsecond : latest ∈ s.records := by rw [hrecords]; exact List.mem_cons_of_mem _ List.mem_cons_self
  obtain ⟨hvalue,-,hname,-,hlength⟩ := hall record hfirst
  have hid : IsLast twoRows.names "id" 2 := by
    refine ⟨rfl,fun j hj he => ?_⟩
    rw [List.getElem?_eq_none (show twoRows.names.length ≤ j from hj)] at he
    cases he
  have hcolumn := fun i hi => (hvalue i hi).symm.trans (congrArg (·[i]?) hrow)
  refine ⟨s,hr,record,hfirst,?_,Option.some.inj (hcolumn 1 (by decide)),?_⟩
  · rw [(hname "id" 2 hid).1]
    exact Option.some.inj (hcolumn 2 (by decide))
  · have hnull := ((hall latest hsecond).1 1 (by decide)).symm.trans (congrArg (·[1]?) hlatest)
    rw [hlength (by rw [hcalls]; decide) latest (by rw [hrecords]; rfl) 1 (by decide),Option.some.inj hnull]
    rfl

end LinuxServer.Db.DBRecordSet
