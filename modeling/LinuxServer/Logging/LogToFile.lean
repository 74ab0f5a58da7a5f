import LinuxServer.Logging.AsyncLoggingQueue
import LinuxServer.Logging.DoubleBuffering
import LinuxServer.Logging.LogFileNames

/-! The asynchronous loggers with their log file: from a call of Append in any thread to
the bytes on the disk, through buffers or a queue, files that roll and short writes. -/
namespace LinuxServer.Logging.LogToFile
open LinuxServer.Lib

/-- What threadFunc, the producers and the owner do, with the calls of Append of the
LogFile in order. The LogFile is constructed when threadFunc begins. -/
structure FrontEnd (σ α : Type) where
  machine : Machine σ α Halt
  begun : σ → Bool
  output : σ → List (List UInt8)
  init : ∀ s, machine.Init s → begun s = false ∧ output s = []
  grows : ∀ s a t, machine.Reachable s → machine.step s a = .ok t →
    output s <+: output t ∧ (begun s = true → begun t = true) ∧ (begun s = false → output t = output s)

structure State (σ : Type) where
  front : σ
  file : Option LogFile.State

section System
variable {σ α : Type} (fe : FrontEnd σ α) (env : LogFile.Env)

def construct (file : Option LogFile.State) (begun : Bool) : Except Halt (Option LogFile.State) :=
  match file with
  | some f => .ok (some f)
  | none => if begun then (LogFile.new env).map some else .ok none

def appendAll (file : Option LogFile.State) (records : List (List UInt8)) : Except Halt (Option LogFile.State) :=
  match file with
  | some f => (records.foldlM (LogFile.append env) f).map some
  | none => .ok none

def step (s : State σ) (a : α) : Except Halt (State σ) := do
  let front ← fe.machine.step s.front a
  let file ← construct env s.file (fe.begun front)
  let file ← appendAll env file ((fe.output front).drop (fe.output s.front).length)
  .ok ⟨front,file⟩

def machine : Machine (State σ) α Halt := ⟨fun s => fe.machine.Init s.front ∧ s.file = none,step fe env⟩

/-- What is in the files, in the order in which they were opened. -/
def State.disk (s : State σ) : List (List UInt8) := s.file.elim [] fun f => f.opened.map f.disk

end System

/-- A base name without a slash, writes that write something, and the calendar's clock,
which starts behind the epoch. -/
structure Sound (env : LogFile.Env) : Prop where
  base : '/' ∉ env.strBaseName.toList
  first : 0 < env.time 0
  short : ∀ k n, 0 < n → 0 < (env.fwrite k n).val
  calendar : env.Calendar

theorem sound_newYear : Sound LogFile.newYear :=
  ⟨by decide,by decide,fun _ _ hn => Nat.lt_min.mpr ⟨Nat.one_pos,hn⟩,LogFile.newYear_calendar⟩

section Partition
variable {σ α : Type} {fe : FrontEnd σ α} {env : LogFile.Env} {s t : State σ} {a : α}

private theorem reachable_front (h : (machine fe env).Reachable s) : fe.machine.Reachable s.front := by
  refine Machine.Reachable.component (m := machine fe env) State.front (fun s hs => hs.1) ?_ h
  intro s a t hs
  simp only [machine,step,bind_ok_iff,Except.ok.injEq] at hs
  obtain ⟨front,hfront,_,_,_,_,rfl⟩ := hs
  exact .inr ⟨a,hfront⟩

/-- The files hold the calls so far. -/
structure Filed (fe : FrontEnd σ α) (env : LogFile.Env) (s : State σ) : Prop where
  none : s.file = none → fe.begun s.front = false ∧ fe.output s.front = []
  some : ∀ f, s.file = some f → fe.begun s.front = true ∧ LogFile.Partition env (fe.output s.front) f

private theorem appendAll_some (henv : Sound env) {lines : List (List UInt8)} {f : LogFile.State}
    (h : LogFile.Partition env lines f) (records : List (List UInt8)) :
    ∃ f', appendAll env (some f) records = .ok (some f') ∧ LogFile.Partition env (lines ++ records) f' := by
  induction records generalizing lines f with
  | nil => exact ⟨f,rfl,by rwa [List.append_nil]⟩
  | cons record records ih =>
    obtain ⟨f₁,hfirst,h₁⟩ := h.append henv.short record
    obtain ⟨f',hrest,h'⟩ := ih h₁
    refine ⟨f',?_,by rwa [List.append_assoc] at h'⟩
    simpa only [appendAll,List.foldlM_cons,hfirst,ok_bind] using hrest

/-- The LogFile never stops the logger: it is constructed and takes all that it is given. -/
private theorem filed_step (henv : Sound env) (hreach : fe.machine.Reachable s.front) (h : Filed fe env s) {front : σ}
    (hfront : fe.machine.step s.front a = .ok front) : ∃ file, step fe env s a = .ok ⟨front,file⟩ ∧ Filed fe env ⟨front,file⟩ := by
  obtain ⟨⟨more,hmore⟩,hstays,hlate⟩ := fe.grows _ _ _ hreach hfront
  have hdrop : (fe.output front).drop (fe.output s.front).length = more := by rw [← hmore,List.drop_left]
  have hsteps : step fe env s a = (construct env s.file (fe.begun front) >>= fun file => appendAll env file more >>=
      fun file => .ok ⟨front,file⟩) := by
    rw [step,hfront,ok_bind,hdrop]
  cases hfile : s.file with
  | some f =>
    obtain ⟨hbegun,hpart⟩ := h.some f hfile
    obtain ⟨f',hrun,hpart'⟩ := appendAll_some henv hpart more
    rw [hmore] at hpart'
    refine ⟨some f',?_,fun hn => (by cases hn),fun g hg => ?_⟩
    · rw [hsteps,hfile,construct,ok_bind,hrun,ok_bind]
    · cases hg
      exact ⟨hstays hbegun,hpart'⟩
  | none =>
    obtain ⟨hnot,hempty⟩ := h.none hfile
    have hsame : fe.output front = [] := (hlate hnot).trans hempty
    obtain rfl : more = [] := by
      rw [hempty,hsame] at hmore
      exact hmore
    cases hb : fe.begun front with
    | false =>
      refine ⟨none,?_,fun _ => ⟨hb,hsame⟩,fun g hg => (by cases hg)⟩
      rw [hsteps,hfile,hb]
      rfl
    | true =>
      obtain ⟨f,hnew,hpart⟩ := LogFile.partition_new henv.base henv.first
      refine ⟨some f,?_,fun hn => (by cases hn),fun g hg => ?_⟩
      · rw [hsteps,hfile,hb,construct,if_pos rfl,hnew]
        rfl
      · cases hg
        refine ⟨hb,?_⟩
        rw [hsame]
        exact hpart

private theorem reachable_filed (henv : Sound env) (h : (machine fe env).Reachable s) : Filed fe env s := by
  refine h.induction (P := Filed fe env) ?_ ?_
  · intro s hs
    exact ⟨fun _ => fe.init _ hs.1,fun f hf => by rw [hs.2] at hf; cases hf⟩
  · intro s a t hreach hfiled hs
    have hs' := hs
    simp only [machine,step,bind_ok_iff,Except.ok.injEq] at hs
    obtain ⟨front,hfront,_,_,_,_,rfl⟩ := hs
    obtain ⟨file,hrun,hfiled'⟩ := filed_step henv (reachable_front hreach) hfiled hfront
    cases hs'.symm.trans hrun
    exact hfiled'

/-- A step of the logger fails where its front end does. -/
theorem step_error_iff (henv : Sound env) (h : (machine fe env).Reachable s) (a : α) (e : Halt) :
    step fe env s a = .error e ↔ fe.machine.step s.front a = .error e := by
  cases hfront : fe.machine.step s.front a with
  | error e' =>
    have hstep : step fe env s a = .error e' := by
      rw [step,hfront]
      rfl
    rw [hstep]
    simp only [Except.error.injEq]
  | ok front =>
    obtain ⟨file,hrun,-⟩ := filed_step henv (reachable_front h) (reachable_filed henv h) hfront
    rw [hrun]
    exact iff_of_false (fun hn => by cases hn) (fun hn => by cases hn)

/-- The files are made of the calls, each whole in one file. -/
theorem disk_chunked (henv : Sound env) (h : (machine fe env).Reachable s) : Chunked s.disk (fe.output s.front) := by
  have hfiled := reachable_filed henv h
  rw [State.disk]
  cases hfile : s.file with
  | none =>
    rw [(hfiled.none hfile).2]
    exact Chunked.nil
  | some f =>
    obtain ⟨-,hpart⟩ := hfiled.some f hfile
    exact hpart.contents ((hpart.sorted henv.calendar).imp fun hlt => hlt.ne)

end Partition

section DoubleBuffering
open AsyncLoggingDoubleBuffering
variable {SIZE : Nat}

def bufferedBegun : AsyncLoggingDoubleBuffering.Consumer → Bool
  | .notStarted | .starting => false
  | _ => true

private theorem output_move {s t : AsyncLoggingDoubleBuffering.State SIZE} {a : AsyncLoggingDoubleBuffering.Label}
    (h : Stock s) (hm : Move s a t) : s.output <+: t.output ∧ (bufferedBegun s.consumer = true → bufferedBegun t.consumer = true) ∧
      (bufferedBegun s.consumer = false → t.output = s.output) := by
  cases hm with
  | start ho =>
    have howned := h.owned
    rw [ho] at howned
    exact ⟨List.prefix_rfl,fun hb => (by rw [howned] at hb; cases hb),fun _ => rfl⟩
  | countDown hc | goOn hc | leave hc | wait hc | swap _ _ _ hc | keep hc | written _ hc | recycle _ _ _ _ _ hc =>
    exact ⟨List.prefix_rfl,fun _ => rfl,fun _ => rfl⟩
  | startReturns | fill | rotate | stop | join => exact ⟨List.prefix_rfl,id,fun _ => rfl⟩
  | drop hc =>
    exact ⟨List.prefix_append _ _,fun _ => rfl,fun hb => by rw [hc] at hb; cases hb⟩
  | write n b hc hb =>
    exact ⟨List.prefix_append _ _,fun _ => rfl,fun hb => by rw [hc] at hb; cases hb⟩

/-- AsyncLoggingDoubleBuffering, with buffers of any size. -/
def doubleBuffering (SIZE : Nat) : FrontEnd (AsyncLoggingDoubleBuffering.State SIZE) AsyncLoggingDoubleBuffering.Label where
  machine := AsyncLoggingDoubleBuffering.machine SIZE
  begun s := bufferedBegun s.consumer
  output s := s.output.map Record.written
  init s hs := by
    cases hs
    exact ⟨rfl,rfl⟩
  grows s a t hreach hs := by
    obtain ⟨hfirst,hstays,hlate⟩ := output_move (reachable_stock hreach) (move_of_step hs)
    exact ⟨hfirst.map _,hstays,fun hb => by rw [hlate hb]⟩

/-- The log as its reader sees it: lines, and a notice in the place of those dropped. -/
inductive Item where
  | line (bytes : List UInt8)
  | notice (dropped : List (List UInt8))

def Item.written : Item → List UInt8
  | .line bytes => bytes
  | .notice _ => "Dropped log messages\n".toUTF8.data.toList

def Item.lines : Item → List (List UInt8)
  | .line bytes => [bytes]
  | .notice dropped => dropped

def Item.IsLine : Item → Prop
  | .line _ => True
  | .notice _ => False

private theorem written_lines (lines : List (List UInt8)) : (lines.map Item.line).map Item.written = lines := by
  rw [List.map_map]
  exact List.map_id lines

private theorem lines_lines (lines : List (List UInt8)) : (lines.map Item.line).flatMap Item.lines = lines := by
  rw [List.flatMap_map]
  exact List.flatMap_singleton' lines

/-- The lines behind the calls of Append of the LogFile. -/
private theorem items_of_records {records : List (Record SIZE)} {lines : List (List UInt8)}
    (h : Chunked ((records.flatMap Record.buffers).map FixedBuffer.data) lines) :
    ∃ items : List Item, lines = items.flatMap Item.lines ∧ Chunked (records.map Record.written) (items.map Item.written) ∧
      ((∀ r ∈ records, ∃ b, r = .buffer b) → ∀ item ∈ items, item.IsLine) := by
  induction records generalizing lines with
  | nil =>
    obtain ⟨groups,rfl,hgroups⟩ := h
    rw [List.map_eq_nil_iff.mp hgroups]
    exact ⟨[],rfl,Chunked.nil,fun _ item hitem => by cases hitem⟩
  | cons r records ih =>
    rw [List.flatMap_cons,List.map_append] at h
    obtain ⟨early,late,rfl,hearly,hlate⟩ := h.split
    obtain ⟨items,rfl,hitems,hlines⟩ := ih hlate
    cases r with
    | buffer b =>
      have hb : Chunked [b.data] early := hearly
      refine ⟨early.map Item.line ++ items,?_,?_,?_⟩
      · rw [List.flatMap_append,lines_lines]
      · rw [List.map_append,written_lines]
        exact hb.append hitems
      · intro hall item hitem
        rcases List.mem_append.mp hitem with hi | hi
        · obtain ⟨_,-,rfl⟩ := List.mem_map.mp hi
          trivial
        · exact hlines (fun r hr => hall r (List.mem_cons_of_mem _ hr)) item hi
    | dropMsg dropped =>
      refine ⟨Item.notice early :: items,rfl,(Chunked.refl [_]).append hitems,fun hall => ?_⟩
      obtain ⟨b,hb⟩ := hall _ List.mem_cons_self
      cases hb

private theorem records_of_few {s : AsyncLoggingDoubleBuffering.State SIZE} (hi : Inv s)
    (hfew : ∀ batch ∈ s.batches, batch.length ≤ 25) : ∀ r ∈ s.output, ∃ b, r = .buffer b := by
  intro r hr
  have hmem : r ∈ s.batches.flatMap policy := by
    rw [← hi.policy]
    exact List.mem_append_left _ hr
  obtain ⟨batch,hbatch,hrec⟩ := List.mem_flatMap.mp hmem
  rw [policy,if_neg (Nat.not_lt.mpr (hfew batch hbatch))] at hrec
  obtain ⟨b,-,rfl⟩ := List.mem_map.mp hrec
  exact ⟨b,rfl⟩

/-- The log that the double-buffered logger leaves on the disk, in every interleaving of
producers, consumer and owner, while the lines are shorter than a buffer: a line is in
the files whole, or a notice stands in its place, or it is still in a buffer; nothing
comes twice, in one order for all; and the LogFile fails at no step. -/
theorem buffered_log {env : LogFile.Env} (henv : Sound env) {s : State (AsyncLoggingDoubleBuffering.State SIZE)}
    (h : (machine (doubleBuffering SIZE) env).Reachable s) (hshort : ∀ line ∈ s.front.lines, line.length < SIZE) :
    (∀ a e, step (doubleBuffering SIZE) env s a = .error e → e = .notEnabled) ∧
    ∃ (items : List Item) (unwritten : List (List UInt8)) (cur : FixedBuffer SIZE), s.front.curBuffer = some cur ∧ s.front.lines = items.flatMap Item.lines ++ unwritten ∧
      Chunked s.disk (items.map Item.written) ∧
      Chunked ((s.front.unwritten ++ s.front.buffers ++ [cur]).map FixedBuffer.data) unwritten ∧
      ((∀ batch ∈ s.front.batches, batch.length ≤ 25) → ∀ item ∈ items, item.IsLine) := by
  have hfront := reachable_front h
  have hi := reachable_inv hfront hshort
  refine ⟨?_,?_⟩
  · intro a e he
    rw [step_error_iff henv h] at he
    rcases step_ok_or_notEnabled hi.stock a with ⟨t,ht⟩ | hn
    · exact absurd (he.symm.trans ht) (fun hx => by cases hx)
    · exact (Except.error.inj (he.symm.trans hn))
  · obtain ⟨cur,hcur,hcontent⟩ := hi.content
    rw [hi.handed,List.append_assoc,List.append_assoc,List.map_append,← List.append_assoc] at hcontent
    obtain ⟨early,late,hlines,hearly,hlate⟩ := hcontent.split
    obtain ⟨items,rfl,hitems,hline⟩ := items_of_records hearly
    exact ⟨items,late,cur,hcur,hlines,(disk_chunked henv h).trans hitems,hlate,fun hfew => hline (records_of_few hi hfew)⟩

/-- Two lines that do not fit into one buffer, the first of them written. -/
theorem buffered_log_twoLines : ∃ s, (machine (doubleBuffering 4) LogFile.newYear).Reachable s ∧
    s.front.lines = [[1,2],[3,4]] ∧ s.disk = [[1,2],[]] ∧ ∃ (items : List Item) (unwritten : List (List UInt8)),
      s.front.lines = items.flatMap Item.lines ++ unwritten ∧ Chunked s.disk (items.map Item.written) ∧
      ∀ item ∈ items, item.IsLine := by
  let labels : List AsyncLoggingDoubleBuffering.Label :=
    [.start,.countDown,.startReturns,.append [1,2],.append [3,4],.testRunning,.lock,.wake,.drop,.write]
  have hinit : (machine (doubleBuffering 4) LogFile.newYear).Init ⟨initial,none⟩ := ⟨rfl,rfl⟩
  obtain ⟨s,hr,hv⟩ := (machine (doubleBuffering 4) LogFile.newYear).exists_reachable hinit labels
    (fun s => (s.front.lines,s.disk,s.front.batches.map List.length)) (b := ([[1,2],[3,4]],[[1,2],[]],[2])) (by decide +kernel)
  simp only [Prod.mk.injEq] at hv
  obtain ⟨hl,hd,hb⟩ := hv
  obtain ⟨-,items,unwritten,-,-,hlines,hitems,-,hfew⟩ := buffered_log sound_newYear hr (by rw [hl]; decide)
  refine ⟨s,hr,hl,hd,items,unwritten,hlines,hitems,hfew fun batch hbatch => ?_⟩
  have hlen := List.mem_map_of_mem (f := List.length) hbatch
  rw [hb,List.mem_singleton] at hlen
  omega

end DoubleBuffering
section Queue
open LinuxServer.Thread AsyncLoggingT
variable {M : Type} {threadId : Tid}

def queuedBegun : AsyncLoggingT.Consumer M → Bool
  | .notStarted | .starting => false
  | _ => true

/-- A step of the queue hands over no line. -/
private theorem advance_output {s t : AsyncLoggingT.State M} {a : QueueLabel (Entry M)} (hs : s.advance a = .ok t) :
    s.output <+: t.output ∧ (queuedBegun s.consumer = true → queuedBegun t.consumer = true) ∧
      (queuedBegun s.consumer = false → t.output = s.output) := by
  simp only [AsyncLoggingT.State.advance,bind_ok_iff,Except.ok.injEq] at hs
  obtain ⟨⟨queue,msg⟩,-,rfl⟩ := hs
  cases msg with
  | none => exact ⟨List.prefix_rfl,id,fun _ => rfl⟩
  | some e => exact ⟨List.prefix_rfl,fun _ => rfl,fun _ => rfl⟩

variable [Message M]

private theorem output_step {s t : AsyncLoggingT.State M} {a : AsyncLoggingT.Label} (h : AsyncLoggingT.Inv threadId s)
    (hs : AsyncLoggingT.step threadId s a = .ok t) : s.output <+: t.output ∧
      (queuedBegun s.consumer = true → queuedBegun t.consumer = true) ∧ (queuedBegun s.consumer = false → t.output = s.output) := by
  cases a with
  | start =>
    simp only [AsyncLoggingT.step,bind_ok_iff,ensure_ok_iff,Except.ok.injEq] at hs
    obtain ⟨-,ho,rfl⟩ := hs
    have howned := h.owned
    rw [ho] at howned
    have hc : s.consumer = .notStarted := howned
    exact ⟨List.prefix_rfl,fun hb => (by rw [hc] at hb; cases hb),fun _ => rfl⟩
  | countDown =>
    simp only [AsyncLoggingT.step,bind_ok_iff,ensure_ok_iff,Except.ok.injEq] at hs
    obtain ⟨-,-,-,-,rfl⟩ := hs
    exact ⟨List.prefix_rfl,fun _ => rfl,fun _ => rfl⟩
  | startReturns | stop =>
    simp only [AsyncLoggingT.step,bind_ok_iff,ensure_ok_iff,Except.ok.injEq] at hs
    obtain ⟨-,-,rfl⟩ := hs
    exact ⟨List.prefix_rfl,id,fun _ => rfl⟩
  | append tid line woken =>
    simp only [AsyncLoggingT.step,bind_ok_iff,ensure_ok_iff] at hs
    obtain ⟨-,-,m,-,hs⟩ := hs
    exact advance_output hs
  | take woken =>
    simp only [AsyncLoggingT.step,bind_ok_iff,ensure_ok_iff] at hs
    obtain ⟨-,-,hs⟩ := hs
    exact advance_output hs
  | resume tid woken | wakeSpuriously tid => exact advance_output hs
  | handle =>
    simp only [AsyncLoggingT.step,AsyncLoggingT.State.handle] at hs
    split at hs
    · rename_i e he
      split at hs
      · simp only [bind_ok_iff,ensure_ok_iff,Except.ok.injEq] at hs
        obtain ⟨-,-,rfl⟩ := hs
        exact ⟨List.prefix_rfl,fun _ => rfl,fun _ => rfl⟩
      · cases hs
        exact ⟨List.prefix_append _ _,fun _ => rfl,fun hb => by rw [he] at hb; cases hb⟩
    · cases hs
  | putEndMarker tid woken =>
    simp only [AsyncLoggingT.step,bind_ok_iff,ensure_ok_iff] at hs
    obtain ⟨-,-,hs⟩ := hs
    have hadvance := advance_output hs
    exact hadvance
  | join =>
    simp only [AsyncLoggingT.step] at hs
    split at hs
    · simp only [bind_ok_iff,ensure_ok_iff,Except.ok.injEq] at hs
      obtain ⟨-,-,rfl⟩ := hs
      exact ⟨List.prefix_rfl,id,fun _ => rfl⟩
    · cases hs

/-- AsyncLoggingT, over either queue and for either message type. -/
def queued (threadId : Tid) (M : Type) [Message M] : FrontEnd (AsyncLoggingT.State M) AsyncLoggingT.Label where
  machine := AsyncLoggingT.machine threadId M
  begun s := queuedBegun s.consumer
  output s := s.output
  init s hs := by
    obtain rfl | ⟨_,rfl⟩ := hs
    · exact ⟨rfl,rfl⟩
    · exact ⟨rfl,rfl⟩
  grows _ _ _ hreach hs := output_step (AsyncLoggingT.reachable_inv hreach) hs

/-- What is put is a line, but for the end marker. -/
private theorem origin_of_put {s : AsyncLoggingT.State M} (h : AsyncLoggingT.Inv threadId s) {e : Entry M}
    (he : e ∈ s.queue.puts) (hsome : Message.empty e.msg = false) : e.origin = .append := by
  have hend := h.ending
  generalize s.owner = o at hend
  cases hend with
  | lines _ _ hputs _ | stopping hputs _ | sleeping _ hputs _ => exact hputs e he
  | marked _ ls _ hputs hls _ =>
    rw [hputs] at he
    rcases List.mem_append.mp he with hm | hm
    · exact hls e hm
    · rw [List.mem_singleton.mp hm] at hsome
      simp only [Message.empty,marker,Message.endMarker_data] at hsome
      cases hsome

/-- What the LogFile was given so far are the first of the lines. -/
private theorem output_lines {s : AsyncLoggingT.State M} (h : AsyncLoggingT.Inv threadId s) : s.output <+: lines s := by
  have hspoken : ∃ prev, Spoken prev s.output ∧ prev <+: s.queue.takes := by
    have hcons := h.consumed
    generalize s.consumer = c at hcons
    cases hcons with
    | waiting _ _ hsp => exact ⟨_,hsp,List.prefix_rfl⟩
    | handling e prev htakes hsp => exact ⟨prev,hsp,htakes ▸ List.prefix_append _ _⟩
    | finished e prev htakes hsp _ => exact ⟨prev,hsp,htakes ▸ List.prefix_append _ _⟩
  obtain ⟨prev,⟨hout,hsome⟩,hfirst⟩ := hspoken
  have hputs : prev <+: s.queue.puts := by
    rw [← h.queue.fifo]
    exact hfirst.trans (List.prefix_append _ _)
  have hkeep : prev.filter (fun e => e.origin = .append) = prev :=
    List.filter_eq_self.mpr fun e he => decide_eq_true (origin_of_put h (hputs.subset he) (hsome e he))
  rw [hout,lines]
  rw [← hkeep]
  exact (hputs.filter _).map _

/-- The log that the queue logger leaves on the disk, over either queue and in every
interleaving: the first of the lines in queue order, each whole in one file; and all of
them when Stop has returned, if none was empty. The LogFile adds no failure. -/
theorem queued_log {env : LogFile.Env} (henv : Sound env) {s : State (AsyncLoggingT.State M)}
    (h : (machine (queued threadId M) env).Reachable s) :
    (∀ a e, step (queued threadId M) env s a = .error e ↔ AsyncLoggingT.step threadId s.front a = .error e) ∧
    (∃ written, written <+: lines s.front ∧ Chunked s.disk written) ∧
    (s.front.owner = .stopped → (∀ line ∈ lines s.front, line ≠ []) → Chunked s.disk (lines s.front)) := by
  have hi : AsyncLoggingT.Inv threadId s.front := AsyncLoggingT.reachable_inv (reachable_front h)
  have hdisk : Chunked s.disk s.front.output := disk_chunked henv h
  refine ⟨step_error_iff henv h,⟨_,output_lines hi,hdisk⟩,fun ho hne => ?_⟩
  have howned := hi.owned
  rw [ho] at howned
  cases hc : s.front.consumer with
  | finished e =>
    have hcons := hi.consumed
    rw [hc] at hcons
    cases hcons with
    | waiting _ hw _ => obtain hw | hw | hw := hw <;> cases hw
    | finished _ prev htakes _ hempty =>
      have htaken : e ∈ s.front.queue.takes := by rw [htakes]; simp
      rwa [(finished_marker hi hc (origin_stop hi hne htaken hempty)).2.1] at hdisk
  | notStarted | starting | looping | handling _ =>
    rw [hc] at howned
    exact absurd howned.2 id

/-- Two lines and the end marker through a queue of one place. -/
theorem queued_log_twoLines : ∃ s, (machine (queued 0 LogMessage) LogFile.newYear).Reachable s ∧ s.front.owner = .stopped ∧
    lines s.front = [[104,105],[33]] ∧ s.disk = [[104,105],[33]] ∧ Chunked s.disk (lines s.front) := by
  let labels : List AsyncLoggingT.Label := [.start,.countDown,.append 1 [104,105] none,.append 2 [33] none,.startReturns,
    .take (some 2),.resume 2 none,.handle,.take none,.handle,.stop,.putEndMarker 3 none,.take none,.handle,.join]
  have hinit : (machine (queued 0 LogMessage) LogFile.newYear).Init ⟨AsyncLoggingT.initial (.circularBuffer 1),none⟩ :=
    ⟨.inr ⟨1,rfl⟩,rfl⟩
  obtain ⟨s,hr,hv⟩ := (machine (queued 0 LogMessage) LogFile.newYear).exists_reachable hinit labels
    (fun s => (decide (s.front.owner = .stopped),lines s.front,s.disk)) (b := (true,[[104,105],[33]],[[104,105],[33]])) (by decide +kernel)
  simp only [Prod.mk.injEq,decide_eq_true_eq] at hv
  obtain ⟨ho,hl,hd⟩ := hv
  exact ⟨s,hr,ho,hl,hd,(queued_log sound_newYear hr).2.2 ho (by rw [hl]; decide)⟩

end Queue
end LinuxServer.Logging.LogToFile
