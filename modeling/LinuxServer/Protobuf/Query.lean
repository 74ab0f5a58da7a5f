import LinuxServer.Protobuf.Varint

/-! The generated classes Query, Answer and Empty: what is written reads back, and two
messages one behind the other read as their merge. -/
namespace LinuxServer.Protobuf
open LinuxServer.Lib

/-- A class that was generated: its parser, and its other functions. -/
structure GeneratedClass (F M : Type) where
  parser : MessageClass F M
  /-- As it is constructed. -/
  new : M
  mergeFrom : M → M → M
  isInitialized : M → Bool
  byteSize : M → BitVec 32
  serializeWithCachedSizes : M → List UInt8

variable {F : Type} (w : CodedStream F)

/-- A singular field that is not set has its default value. -/
structure Query (F : Type) where
  id : Option (BitVec 64)
  questioner : Option (List UInt8)
  question : List (List UInt8)
  unknownFields : List F
  deriving DecidableEq

namespace Query

def new : Query F := ⟨none,none,[],[]⟩

def parseId : FieldCase (Query F) := .int64 w 1 (fun m v => { m with id := some v }) [2] false
def parseQuestioner : FieldCase (Query F) := .string w 2 (fun m s => { m with questioner := some s }) [3] false
def parseQuestion : FieldCase (Query F) := .string w 3 (fun m s => { m with question := m.question ++ [s] }) [3] true

def parser : MessageClass F (Query F) where
  cases := [parseId w,parseQuestioner w,parseQuestion w]
  addUnknown m f := { m with unknownFields := m.unknownFields ++ [f] }

def mergeFrom (m source : Query F) : Query F where
  id := source.id <|> m.id
  questioner := source.questioner <|> m.questioner
  question := m.question ++ source.question
  unknownFields := m.unknownFields ++ source.unknownFields

def isInitialized (m : Query F) : Bool := m.id.isSome && m.questioner.isSome

/-- As an int, which wraps around. -/
def byteSize (m : Query F) : BitVec 32 :=
  m.id.elim 0 (fun v => 1 + w.int64Size v) + m.questioner.elim 0 (fun s => 1 + w.stringSize s) +
    (1 * .ofNat 32 m.question.length + (m.question.map w.stringSize).sum) + w.unknownFieldsSize m.unknownFields

def serializeWithCachedSizes (m : Query F) : List UInt8 :=
  m.id.elim [] (w.writeInt64Field 1) ++ m.questioner.elim [] (w.writeStringField 2) ++
    m.question.flatMap (w.writeStringField 3) ++ w.serializeUnknownFields m.unknownFields

def generated : GeneratedClass F (Query F) :=
  ⟨parser w,new,mergeFrom,isInitialized,byteSize w,serializeWithCachedSizes w⟩

/-- Strings that a length can announce, and unknown fields that no case reads. -/
structure WF (m : Query F) : Prop where
  questioner : ∀ s, m.questioner = some s → s.length < 2 ^ 31
  question : ∀ s ∈ m.question, s.length < 2 ^ 31
  unknown : ∀ f ∈ m.unknownFields, (parser w).Foreign w f

end Query

structure Answer (F : Type) where
  id : Option (BitVec 64)
  questioner : Option (List UInt8)
  answerer : Option (List UInt8)
  solution : List (List UInt8)
  unknownFields : List F

namespace Answer

def new : Answer F := ⟨none,none,none,[],[]⟩

def parseId : FieldCase (Answer F) := .int64 w 1 (fun m v => { m with id := some v }) [2] false
def parseQuestioner : FieldCase (Answer F) := .string w 2 (fun m s => { m with questioner := some s }) [3] false
def parseAnswerer : FieldCase (Answer F) := .string w 3 (fun m s => { m with answerer := some s }) [4] false
def parseSolution : FieldCase (Answer F) := .string w 4 (fun m s => { m with solution := m.solution ++ [s] }) [4] true

def parser : MessageClass F (Answer F) where
  cases := [parseId w,parseQuestioner w,parseAnswerer w,parseSolution w]
  addUnknown m f := { m with unknownFields := m.unknownFields ++ [f] }

def mergeFrom (m source : Answer F) : Answer F where
  id := source.id <|> m.id
  questioner := source.questioner <|> m.questioner
  answerer := source.answerer <|> m.answerer
  solution := m.solution ++ source.solution
  unknownFields := m.unknownFields ++ source.unknownFields

def isInitialized (m : Answer F) : Bool := m.id.isSome && m.questioner.isSome && m.answerer.isSome

def byteSize (m : Answer F) : BitVec 32 :=
  m.id.elim 0 (fun v => 1 + w.int64Size v) + m.questioner.elim 0 (fun s => 1 + w.stringSize s) +
    m.answerer.elim 0 (fun s => 1 + w.stringSize s) +
    (1 * .ofNat 32 m.solution.length + (m.solution.map w.stringSize).sum) + w.unknownFieldsSize m.unknownFields

def serializeWithCachedSizes (m : Answer F) : List UInt8 :=
  m.id.elim [] (w.writeInt64Field 1) ++ m.questioner.elim [] (w.writeStringField 2) ++
    m.answerer.elim [] (w.writeStringField 3) ++ m.solution.flatMap (w.writeStringField 4) ++
    w.serializeUnknownFields m.unknownFields

def generated : GeneratedClass F (Answer F) :=
  ⟨parser w,new,mergeFrom,isInitialized,byteSize w,serializeWithCachedSizes w⟩

structure WF (m : Answer F) : Prop where
  questioner : ∀ s, m.questioner = some s → s.length < 2 ^ 31
  answerer : ∀ s, m.answerer = some s → s.length < 2 ^ 31
  solution : ∀ s ∈ m.solution, s.length < 2 ^ 31
  unknown : ∀ f ∈ m.unknownFields, (parser w).Foreign w f

end Answer

structure Empty (F : Type) where
  id : Option (BitVec 32)
  unknownFields : List F

namespace Empty

def new : Empty F := ⟨none,[]⟩

def parseId : FieldCase (Empty F) := .int32 w 1 (fun m v => { m with id := some v }) [] true

def parser : MessageClass F (Empty F) where
  cases := [parseId w]
  addUnknown m f := { m with unknownFields := m.unknownFields ++ [f] }

def mergeFrom (m source : Empty F) : Empty F where
  id := source.id <|> m.id
  unknownFields := m.unknownFields ++ source.unknownFields

def isInitialized (_ : Empty F) : Bool := true

def byteSize (m : Empty F) : BitVec 32 := m.id.elim 0 (fun v => 1 + w.int32Size v) + w.unknownFieldsSize m.unknownFields

def serializeWithCachedSizes (m : Empty F) : List UInt8 :=
  m.id.elim [] (w.writeInt32Field 1) ++ w.serializeUnknownFields m.unknownFields

def generated : GeneratedClass F (Empty F) :=
  ⟨parser w,new,mergeFrom,isInitialized,byteSize w,serializeWithCachedSizes w⟩

structure WF (m : Empty F) : Prop where
  unknown : ∀ f ∈ m.unknownFields, (parser w).Foreign w f

end Empty

/-- What the three classes have in common. -/
structure GeneratedClass.Lawful {M : Type} (w : CodedStream F) (g : GeneratedClass F M) (WF : M → Prop) : Prop where
  regular : g.parser.Regular
  new_wf : WF g.new
  read_wf : ∀ c ∈ g.parser.cases, ∀ m input m' rest, WF m → c.read m input = some (m',rest) → WF m'
  unknown_wf : ∀ m f, WF m → g.parser.Foreign w f → WF (g.parser.addUnknown m f)
  leads : ∀ m source, WF source → g.parser.Leads w m (g.serializeWithCachedSizes source) (g.mergeFrom m source)
  new_merge : ∀ m, g.mergeFrom g.new m = m
  byteSize_eq : ∀ m, IntSize (g.byteSize m) (g.serializeWithCachedSizes m)

variable {w}

namespace Query

private theorem typed : ∀ c ∈ (Query.parser w).cases, c.Typed w := by
  intro c hc
  simp only [parser,List.mem_cons,List.not_mem_nil,or_false] at hc
  rcases hc with rfl | rfl | rfl
  · exact .int64 1 (by decide) (by decide) ..
  · exact .string 2 (by decide) (by decide) ..
  · exact .string 3 (by decide) (by decide) ..

private theorem leads (hw : w.Documented) (m : Query F) {source : Query F} (h : WF w source) :
    (parser w).Leads w m (serializeWithCachedSizes w source) (mergeFrom m source) := by
  have hcls := MessageClass.regular_of_typed hw typed
  let id (a : Option (BitVec 64)) : Query F := { m with id := a <|> m.id }
  let questioner (a : Option (List UInt8)) : Query F := { id source.id with questioner := a <|> m.questioner }
  let question (l : List (List UInt8)) : Query F := { questioner source.questioner with question := l }
  let unknown (l : List F) : Query F := { question (m.question ++ source.question) with unknownFields := l }
  have hid : (parser w).Leads w (id none) (source.id.elim [] (w.writeInt64Field 1)) (id source.id) :=
    .option fun v _ => MessageClass.leads_int64 hw hcls (by decide : 1 < 16) rfl _ v
  have hquestioner : (parser w).Leads w (questioner none) (source.questioner.elim [] (w.writeStringField 2)) (questioner source.questioner) :=
    .option fun s hs => MessageClass.leads_string hw hcls (by decide : 2 < 16) rfl _ (h.questioner s hs)
  have hquestion : (parser w).Leads w (question m.question) (source.question.flatMap (w.writeStringField 3))
      (question (m.question ++ source.question)) :=
    .repeated (fun s hs _ => MessageClass.leads_string hw hcls (by decide : 3 < 16) rfl _ (h.question s hs)) _
  have hunknown : (parser w).Leads w (unknown m.unknownFields) (w.serializeUnknownFields source.unknownFields)
      (unknown (m.unknownFields ++ source.unknownFields)) :=
    .repeated (fun f hf _ => MessageClass.leads_unknown hw hcls (h.unknown f hf) _) _
  exact ((hid.trans hquestioner).trans hquestion).trans hunknown

private theorem WF.read (hw : w.Documented) {c : FieldCase (Query F)} (hc : c ∈ (parser w).cases) {m m' : Query F}
    {input rest : List UInt8} (h : WF w m) (hread : c.read m input = some (m',rest)) : WF w m' := by
  simp only [parser,List.mem_cons,List.not_mem_nil,or_false] at hc
  rcases hc with rfl | rfl | rfl
  · obtain ⟨v,rfl⟩ := FieldCase.read_int64 hw hread
    exact ⟨h.questioner,h.question,h.unknown⟩
  · obtain ⟨s,hs,rfl⟩ := FieldCase.read_string hw hread
    exact ⟨fun s' hs' => (by cases hs'; exact hs),h.question,h.unknown⟩
  · obtain ⟨s,hs,rfl⟩ := FieldCase.read_string hw hread
    exact ⟨h.questioner,List.forall_mem_append.mpr ⟨h.question,List.forall_mem_singleton.mpr hs⟩,h.unknown⟩

private theorem byteSize_eq (hw : w.Documented) (m : Query F) : IntSize (byteSize w m) (serializeWithCachedSizes w m) := by
  have hid := IntSize.elim (CodedStream.size_writeInt64Field hw (by decide : 0 < 1) (by decide)) m.id
  have hquestioner := IntSize.elim (CodedStream.size_writeStringField hw (by decide : 0 < 2) (by decide)) m.questioner
  have hquestion := IntSize.flatMap (CodedStream.size_writeStringField hw (by decide : 0 < 3) (by decide)) m.question
  exact ((hid.append hquestioner).append hquestion).append (hw.unknownFieldsSize_eq m.unknownFields)

theorem lawful (hw : w.Documented) : (Query.generated w).Lawful w (WF w) where
  regular := MessageClass.regular_of_typed hw typed
  new_wf := ⟨fun s hs => (by cases hs),fun s hs => (by cases hs),fun f hf => (by cases hf)⟩
  read_wf _ hc _ _ _ _ h hread := h.read hw hc hread
  unknown_wf _ _ h hf := ⟨h.questioner,h.question,List.forall_mem_append.mpr ⟨h.unknown,List.forall_mem_singleton.mpr hf⟩⟩
  leads m _ h := leads hw m h
  new_merge m := by
    obtain ⟨id,questioner,question,unknown⟩ := m
    simp [Query.generated,mergeFrom,new]
  byteSize_eq := byteSize_eq hw

end Query

namespace Answer

private theorem typed : ∀ c ∈ (Answer.parser w).cases, c.Typed w := by
  intro c hc
  simp only [parser,List.mem_cons,List.not_mem_nil,or_false] at hc
  rcases hc with rfl | rfl | rfl | rfl
  · exact .int64 1 (by decide) (by decide) ..
  · exact .string 2 (by decide) (by decide) ..
  · exact .string 3 (by decide) (by decide) ..
  · exact .string 4 (by decide) (by decide) ..

private theorem leads (hw : w.Documented) (m : Answer F) {source : Answer F} (h : WF w source) :
    (parser w).Leads w m (serializeWithCachedSizes w source) (mergeFrom m source) := by
  have hcls := MessageClass.regular_of_typed hw typed
  let id (a : Option (BitVec 64)) : Answer F := { m with id := a <|> m.id }
  let questioner (a : Option (List UInt8)) : Answer F := { id source.id with questioner := a <|> m.questioner }
  let answerer (a : Option (List UInt8)) : Answer F := { questioner source.questioner with answerer := a <|> m.answerer }
  let solution (l : List (List UInt8)) : Answer F := { answerer source.answerer with solution := l }
  let unknown (l : List F) : Answer F := { solution (m.solution ++ source.solution) with unknownFields := l }
  have hid : (parser w).Leads w (id none) (source.id.elim [] (w.writeInt64Field 1)) (id source.id) :=
    .option fun v _ => MessageClass.leads_int64 hw hcls (by decide : 1 < 16) rfl _ v
  have hquestioner : (parser w).Leads w (questioner none) (source.questioner.elim [] (w.writeStringField 2)) (questioner source.questioner) :=
    .option fun s hs => MessageClass.leads_string hw hcls (by decide : 2 < 16) rfl _ (h.questioner s hs)
  have hanswerer : (parser w).Leads w (answerer none) (source.answerer.elim [] (w.writeStringField 3)) (answerer source.answerer) :=
    .option fun s hs => MessageClass.leads_string hw hcls (by decide : 3 < 16) rfl _ (h.answerer s hs)
  have hsolution : (parser w).Leads w (solution m.solution) (source.solution.flatMap (w.writeStringField 4))
      (solution (m.solution ++ source.solution)) :=
    .repeated (fun s hs _ => MessageClass.leads_string hw hcls (by decide : 4 < 16) rfl _ (h.solution s hs)) _
  have hunknown : (parser w).Leads w (unknown m.unknownFields) (w.serializeUnknownFields source.unknownFields)
      (unknown (m.unknownFields ++ source.unknownFields)) :=
    .repeated (fun f hf _ => MessageClass.leads_unknown hw hcls (h.unknown f hf) _) _
  exact (((hid.trans hquestioner).trans hanswerer).trans hsolution).trans hunknown

private theorem WF.read (hw : w.Documented) {c : FieldCase (Answer F)} (hc : c ∈ (parser w).cases) {m m' : Answer F}
    {input rest : List UInt8} (h : WF w m) (hread : c.read m input = some (m',rest)) : WF w m' := by
  simp only [parser,List.mem_cons,List.not_mem_nil,or_false] at hc
  rcases hc with rfl | rfl | rfl | rfl
  · obtain ⟨v,rfl⟩ := FieldCase.read_int64 hw hread
    exact ⟨h.questioner,h.answerer,h.solution,h.unknown⟩
  · obtain ⟨s,hs,rfl⟩ := FieldCase.read_string hw hread
    exact ⟨fun s' hs' => (by cases hs'; exact hs),h.answerer,h.solution,h.unknown⟩
  · obtain ⟨s,hs,rfl⟩ := FieldCase.read_string hw hread
    exact ⟨h.questioner,fun s' hs' => (by cases hs'; exact hs),h.solution,h.unknown⟩
  · obtain ⟨s,hs,rfl⟩ := FieldCase.read_string hw hread
    exact ⟨h.questioner,h.answerer,List.forall_mem_append.mpr ⟨h.solution,List.forall_mem_singleton.mpr hs⟩,h.unknown⟩

private theorem byteSize_eq (hw : w.Documented) (m : Answer F) : IntSize (byteSize w m) (serializeWithCachedSizes w m) := by
  have hid := IntSize.elim (CodedStream.size_writeInt64Field hw (by decide : 0 < 1) (by decide)) m.id
  have hquestioner := IntSize.elim (CodedStream.size_writeStringField hw (by decide : 0 < 2) (by decide)) m.questioner
  have hanswerer := IntSize.elim (CodedStream.size_writeStringField hw (by decide : 0 < 3) (by decide)) m.answerer
  have hsolution := IntSize.flatMap (CodedStream.size_writeStringField hw (by decide : 0 < 4) (by decide)) m.solution
  exact (((hid.append hquestioner).append hanswerer).append hsolution).append (hw.unknownFieldsSize_eq m.unknownFields)

theorem lawful (hw : w.Documented) : (Answer.generated w).Lawful w (WF w) where
  regular := MessageClass.regular_of_typed hw typed
  new_wf := ⟨fun s hs => (by cases hs),fun s hs => (by cases hs),fun s hs => (by cases hs),fun f hf => (by cases hf)⟩
  read_wf _ hc _ _ _ _ h hread := h.read hw hc hread
  unknown_wf _ _ h hf :=
    ⟨h.questioner,h.answerer,h.solution,List.forall_mem_append.mpr ⟨h.unknown,List.forall_mem_singleton.mpr hf⟩⟩
  leads m _ h := leads hw m h
  new_merge m := by
    obtain ⟨id,questioner,answerer,solution,unknown⟩ := m
    simp [Answer.generated,mergeFrom,new]
  byteSize_eq := byteSize_eq hw

end Answer

namespace Empty

private theorem typed : ∀ c ∈ (Empty.parser w).cases, c.Typed w := by
  intro c hc
  obtain rfl := List.mem_singleton.mp hc
  exact .int32 1 (by decide) (by decide) ..

private theorem leads (hw : w.Documented) (m : Empty F) {source : Empty F} (h : WF w source) :
    (parser w).Leads w m (serializeWithCachedSizes w source) (mergeFrom m source) := by
  have hcls := MessageClass.regular_of_typed hw typed
  let id (a : Option (BitVec 32)) : Empty F := { m with id := a <|> m.id }
  let unknown (l : List F) : Empty F := { id source.id with unknownFields := l }
  have hid : (parser w).Leads w (id none) (source.id.elim [] (w.writeInt32Field 1)) (id source.id) :=
    .option fun v _ => MessageClass.leads_int32 hw hcls (by decide : 1 < 16) rfl _ v
  have hunknown : (parser w).Leads w (unknown m.unknownFields) (w.serializeUnknownFields source.unknownFields)
      (unknown (m.unknownFields ++ source.unknownFields)) :=
    .repeated (fun f hf _ => MessageClass.leads_unknown hw hcls (h.unknown f hf) _) _
  exact hid.trans hunknown

private theorem byteSize_eq (hw : w.Documented) (m : Empty F) : IntSize (byteSize w m) (serializeWithCachedSizes w m) :=
  (IntSize.elim (CodedStream.size_writeInt32Field hw (by decide : 0 < 1) (by decide)) m.id).append
    (hw.unknownFieldsSize_eq m.unknownFields)

theorem lawful (hw : w.Documented) : (Empty.generated w).Lawful w (WF w) where
  regular := MessageClass.regular_of_typed hw typed
  new_wf := ⟨fun f hf => by cases hf⟩
  read_wf c hc m input m' rest h hread := by
    obtain rfl := List.mem_singleton.mp hc
    obtain ⟨v,rfl⟩ := FieldCase.read_int32 hw hread
    exact ⟨h.unknown⟩
  unknown_wf _ _ h hf := ⟨List.forall_mem_append.mpr ⟨h.unknown,List.forall_mem_singleton.mpr hf⟩⟩
  leads m _ h := leads hw m h
  new_merge m := by
    obtain ⟨id,unknown⟩ := m
    simp [Empty.generated,mergeFrom,new]
  byteSize_eq := byteSize_eq hw

end Empty

/-! The three classes together. -/

inductive ClassName where
  | query
  | answer
  | empty
  deriving DecidableEq

def MessageOf (F : Type) : ClassName → Type
  | .query => Query F
  | .answer => Answer F
  | .empty => Empty F

def generated (w : CodedStream F) : (c : ClassName) → GeneratedClass F (MessageOf F c)
  | .query => Query.generated w
  | .answer => Answer.generated w
  | .empty => Empty.generated w

def WellFormed (w : CodedStream F) : (c : ClassName) → MessageOf F c → Prop
  | .query => Query.WF w
  | .answer => Answer.WF w
  | .empty => Empty.WF w

theorem lawful (hw : w.Documented) : (c : ClassName) → (generated w c).Lawful w (WellFormed w c)
  | .query => Query.lawful hw
  | .answer => Answer.lawful hw
  | .empty => Empty.lawful hw

/-- MergePartialFromCodedStream of a class. -/
def mergePartialFromCodedStream (w : CodedStream F) (c : ClassName) (m : MessageOf F c) (input : List UInt8) :
    Except Halt (Option (MessageOf F c × Bool)) :=
  (generated w c).parser.mergePartialFromCodedStream w m input

/-- For every input, whatever tags are seen ahead: the parser with its jumps returns, and
returns what the plain loop over tags does. -/
theorem parser_eq_loop (hw : w.Documented) (c : ClassName) (m : MessageOf F c) (input : List UInt8) :
    mergePartialFromCodedStream w c m input = .ok ((generated w c).parser.merge w m input) :=
  MessageClass.mergePartial_eq_merge hw (lawful hw c).regular m input

/-- A question before its id, with a field of the number 9 between them. -/
theorem parser_eq_loop_unordered : mergePartialFromCodedStream Varint.stream .query Query.new [26,1,120,72,5,8,7] =
    .ok ((Query.parser Varint.stream).merge Varint.stream Query.new [26,1,120,72,5,8,7]) :=
  parser_eq_loop Varint.documented .query Query.new [26,1,120,72,5,8,7]

/-- What is written is as long as announced, if an int can hold that, and a parser merges it into what it has: so
it reads back from the start, and two messages one behind the other read as their merge. -/
theorem written_reads_back (hw : w.Documented) (c : ClassName) {m source : MessageOf F c} (hm : WellFormed w c m)
    (hsource : WellFormed w c source) :
    (((generated w c).serializeWithCachedSizes m).length < 2 ^ 31 →
      ((generated w c).byteSize m).toInt = ((generated w c).serializeWithCachedSizes m).length) ∧
    mergePartialFromCodedStream w c m ((generated w c).serializeWithCachedSizes source) =
      .ok (some ((generated w c).mergeFrom m source,true)) ∧
    mergePartialFromCodedStream w c (generated w c).new ((generated w c).serializeWithCachedSizes m) = .ok (some (m,true)) ∧
    mergePartialFromCodedStream w c (generated w c).new
      ((generated w c).serializeWithCachedSizes m ++ (generated w c).serializeWithCachedSizes source) =
      .ok (some ((generated w c).mergeFrom m source,true)) := by
  have hlaw := lawful hw c
  have hfirst := hlaw.leads (generated w c).new m hm
  rw [hlaw.new_merge] at hfirst
  have hsecond := hlaw.leads m source hsource
  refine ⟨(hlaw.byteSize_eq m).toInt_eq,?_,?_,?_⟩
  · exact (MessageClass.mergePartial_eq_merge hw hlaw.regular ..).trans (congrArg _ (hsecond.merge_eq hw hlaw.regular))
  · exact (MessageClass.mergePartial_eq_merge hw hlaw.regular ..).trans (congrArg _ (hfirst.merge_eq hw hlaw.regular))
  · exact (MessageClass.mergePartial_eq_merge hw hlaw.regular ..).trans
      (congrArg _ ((hfirst.trans hsecond).merge_eq hw hlaw.regular))

def leon : Query Varint.UnknownField := ⟨some 1,some "leon ye".toUTF8.data.toList,["running".toUTF8.data.toList],[]⟩
def noId : Query Varint.UnknownField := ⟨none,some "nobody".toUTF8.data.toList,[[]],[]⟩

theorem leon_wf : Query.WF Varint.stream leon := by
  refine ⟨fun s hs => ?_,fun s hs => ?_,fun f hf => (by cases hf)⟩
  · cases hs
    decide
  · obtain rfl := List.mem_singleton.mp hs
    decide

/-- A second message without an id leaves that of the first. -/
theorem written_reads_back_leon : mergePartialFromCodedStream Varint.stream .query Query.new
    (Query.serializeWithCachedSizes Varint.stream leon ++ Query.serializeWithCachedSizes Varint.stream noId) =
      .ok (some (⟨some 1,some "nobody".toUTF8.data.toList,["running".toUTF8.data.toList,[]],[]⟩,true)) := by
  have hnoId : Query.WF Varint.stream noId := by
    refine ⟨fun s hs => ?_,fun s hs => ?_,fun f hf => (by cases hf)⟩
    · cases hs
      decide
    · obtain rfl := List.mem_singleton.mp hs
      decide
  exact (written_reads_back Varint.documented .query leon_wf hnoId).2.2.2

/-- Whatever bytes a parser accepts, in any order of the fields and with any others among
them: what it made of them is written without loss, unknown fields included. -/
theorem accepted_writes_back (hw : w.Documented) (c : ClassName) {input : List UInt8} {m : MessageOf F c} {consumed : Bool}
    (h : mergePartialFromCodedStream w c (generated w c).new input = .ok (some (m,consumed))) :
    WellFormed w c m ∧ mergePartialFromCodedStream w c (generated w c).new ((generated w c).serializeWithCachedSizes m) = .ok (some (m,true)) := by
  have hlaw := lawful hw c
  rw [mergePartialFromCodedStream,MessageClass.mergePartial_eq_merge hw hlaw.regular] at h
  have hwf : WellFormed w c m :=
    MessageClass.merge_invariant hw hlaw.regular hlaw.read_wf hlaw.unknown_wf hlaw.new_wf (Except.ok.inj h)
  have hleads := hlaw.leads (generated w c).new m hwf
  rw [hlaw.new_merge] at hleads
  exact ⟨hwf,(MessageClass.mergePartial_eq_merge hw hlaw.regular ..).trans (congrArg _ (hleads.merge_eq hw hlaw.regular))⟩

/-- A question before its id, with a field of the number 9 between them: it is written behind. -/
theorem accepted_writes_back_unordered :
    mergePartialFromCodedStream Varint.stream .query Query.new [8,7,26,1,120,72,5] =
      mergePartialFromCodedStream Varint.stream .query Query.new [26,1,120,72,5,8,7] := by
  let m : Query Varint.UnknownField := ⟨some 7,none,[[120]],[⟨72,by decide,by decide,by decide,5⟩]⟩
  have hparse : mergePartialFromCodedStream Varint.stream .query (generated Varint.stream .query).new [26,1,120,72,5,8,7] =
      .ok (some (m,true)) := by rfl
  exact (accepted_writes_back Varint.documented .query hparse).2.trans hparse.symm

end LinuxServer.Protobuf
