import LinuxServer.Thread.BlockingQueue

/-! Logging through a queue, with producers in any threads, the consumer, and an owner
that starts and stops it. The end of the stream is an empty message in the queue. -/
namespace LinuxServer.Logging
open LinuxServer.Lib LinuxServer.Thread

/-- What AsyncLoggingT uses of its message type: the constructor for a line, the
default constructor and the bytes; a message is empty when it has none. -/
class Message (M : Type) where
  ofLine : List UInt8 → Except Halt M
  endMarker : M
  data : M → List UInt8
  ofLine_data : ∀ line m, ofLine line = .ok m → data m = line
  ofLine_error : ∀ line e, ofLine line = .error e → 4000 < line.length ∧ e = .assertion "unLength <= sizeof(m_Data)"
  endMarker_data : data endMarker = []

def Message.empty {M : Type} [Message M] (m : M) : Bool := (Message.data m).isEmpty

/-- The bytes of a std::string. -/
structure LogString where
  bytes : List UInt8
  deriving DecidableEq

instance : Message LogString where
  ofLine line := .ok ⟨line⟩
  endMarker := ⟨[]⟩
  data m := m.bytes
  ofLine_data _ _ h := by cases h; rfl
  ofLine_error _ _ h := by cases h
  endMarker_data := rfl

/-- The bytes of m_Data up to m_unLength; what is behind them is never read. -/
structure LogMessage where
  bytes : List UInt8
  fits : bytes.length ≤ 4000
  deriving DecidableEq

def LogMessage.ofLine (line : List UInt8) : Except Halt LogMessage :=
  if h : line.length ≤ 4000 then .ok ⟨line,h⟩ else .error (.assertion "unLength <= sizeof(m_Data)")

instance : Message LogMessage where
  ofLine := LogMessage.ofLine
  endMarker := ⟨[],Nat.zero_le _⟩
  data m := m.bytes
  ofLine_data line m h := by
    unfold LogMessage.ofLine at h
    split at h
    · cases h
      rfl
    · cases h
  ofLine_error line e h := by
    unfold LogMessage.ofLine at h
    split at h
    · cases h
    · cases h
      exact ⟨by omega,rfl⟩
  endMarker_data := rfl

namespace AsyncLoggingT

/-- Who put a message is recorded for the statements only. -/
inductive Origin where
  | append
  | stop
  deriving DecidableEq

structure Entry (M : Type) where
  msg : M
  origin : Origin
  deriving DecidableEq

/-- Where the consumer is in threadFunc. -/
inductive Consumer (M : Type) where
  | notStarted
  | starting
  /-- In front of Take or inside it. -/
  | looping
  | handling (msg : Entry M)
  /-- It left the loop for this message. -/
  | finished (msg : Entry M)

instance {M : Type} : (c : Consumer M) → Decidable (c = .starting)
  | .starting => isTrue rfl
  | .notStarted | .looping | .handling _ | .finished _ => isFalse fun h => by cases h

instance {M : Type} : (c : Consumer M) → Decidable (c = .looping)
  | .looping => isTrue rfl
  | .notStarted | .starting | .handling _ | .finished _ => isFalse fun h => by cases h

/-- Where the owner is in its calls of Start and Stop. -/
inductive Owner where
  | constructed
  | starting
  | started
  | stopping
  | joining (tid : Tid)
  | stopped
  deriving DecidableEq

structure State (M : Type) where
  running : Bool
  queue : Queue (Entry M)
  consumer : Consumer M
  owner : Owner
  /-- The calls of Append of the LogFile. -/
  output : List (List UInt8)

inductive Label where
  | start
  /-- threadFunc up to CountDown. -/
  | countDown
  | startReturns
  | append (tid : Tid) (line : List UInt8) (woken : Option Tid)
  | take (woken : Option Tid)
  | resume (tid : Tid) (woken : Option Tid)
  | wakeSpuriously (tid : Tid)
  /-- The consumer's loop after Take. -/
  | handle
  | stop
  | putEndMarker (tid : Tid) (woken : Option Tid)
  | join
  deriving DecidableEq

section Machine
variable {M : Type} [Message M] (threadId : Tid)

/-- A step in the queue; a message that Take returns is the consumer's. -/
def State.advance (s : State M) (a : QueueLabel (Entry M)) : Except Halt (State M) := do
  let (queue,msg) ← s.queue.advance a
  .ok { s with queue := queue, consumer := msg.elim s.consumer .handling }

def State.handle (s : State M) : Except Halt (State M) :=
  match s.consumer with
  | .handling e =>
    if Message.empty e.msg then do
      ensure (.assertion "!m_bRunning") (s.running = false)
      .ok { s with consumer := .finished e }
    else .ok { s with output := s.output ++ [Message.data e.msg], consumer := .looping }
  | _ => .error .notEnabled

/-- Is anybody inside Put. -/
def QueueQuiet (q : Queue (Entry M)) : Prop := q.notFullCond.waiting = ∅ ∧ q.notFullCond.woken = ∅

instance (q : Queue (Entry M)) : Decidable (QueueQuiet q) := inferInstanceAs (Decidable (_ ∧ _))

def Finished : Consumer M → Prop
  | .finished _ => True
  | _ => False

instance : (c : Consumer M) → Decidable (Finished c)
  | .finished _ => isTrue trivial
  | .notStarted | .starting | .looping | .handling _ => isFalse id

def Owner.running : Owner → Prop
  | .constructed | .starting | .started => True
  | _ => False

instance : (o : Owner) → Decidable o.running
  | .constructed | .starting | .started => isTrue trivial
  | .stopping | .joining _ | .stopped => isFalse id

/-- Stop is called when all calls of Append have returned, and no later one is made. -/
def step (s : State M) : Label → Except Halt (State M)
  | .start => do
    ensure .notEnabled (s.owner = .constructed)
    .ok { s with running := true, consumer := .starting, owner := .starting }
  | .countDown => do
    ensure .notEnabled (s.consumer = .starting)
    ensure (.assertion "m_bRunning") (s.running = true)
    .ok { s with consumer := .looping }
  | .startReturns => do
    ensure .notEnabled (s.owner = .starting ∧ s.consumer ≠ .starting)
    .ok { s with owner := .started }
  | .append tid line woken => do
    ensure .notEnabled (tid ≠ threadId ∧ s.owner.running)
    let m ← Message.ofLine line
    s.advance (.put tid ⟨m,.append⟩ woken)
  | .take woken => do
    ensure .notEnabled (s.consumer = .looping)
    s.advance (.take threadId woken)
  | .resume tid woken => s.advance (.resume tid woken)
  | .wakeSpuriously tid => s.advance (.wakeSpuriously tid)
  | .handle => s.handle
  | .stop => do
    ensure .notEnabled (s.owner = .started ∧ QueueQuiet s.queue)
    .ok { s with running := false, owner := .stopping }
  | .putEndMarker tid woken => do
    ensure .notEnabled (s.owner = .stopping ∧ tid ≠ threadId)
    State.advance { s with owner := .joining tid } (.put tid ⟨Message.endMarker,.stop⟩ woken)
  | .join =>
    match s.owner with
    | .joining tid => do
      ensure .notEnabled (s.queue.pc tid = .idle ∧ Finished s.consumer)
      .ok { s with owner := .stopped }
    | _ => .error .notEnabled

def initial (c : Container (Entry M)) : State M := ⟨false,.initial c,.notStarted,.constructed,[]⟩

/-- Over a BlockingQueue, or over a BoundedBlockingQueue of any size. -/
def machine (M : Type) [Message M] : Machine (State M) Label Halt :=
  ⟨fun s => s = initial .deque ∨ ∃ nQueueSize, s = initial (.circularBuffer nQueueSize),step threadId⟩

end Machine

section Queue
variable {M : Type} {q r : Queue (Entry M)} {a : QueueLabel (Entry M)} {v : Option (Entry M)}

def NoneInPut (q : Queue (Entry M)) : Prop := ∀ u e, q.pc u ≠ .putting e

/-- Which messages are in the queue or on their way into it: lines until Stop, then the
end marker behind all of them. -/
inductive Ending (marker : Entry M) (q : Queue (Entry M)) : Owner → Prop where
  | lines (o : Owner) (ho : o.running) (hputs : ∀ e ∈ q.puts, e.origin = .append)
      (hpc : ∀ u e, q.pc u = .putting e → e.origin = .append) : Ending marker q o
  | stopping (hputs : ∀ e ∈ q.puts, e.origin = .append) (hpc : NoneInPut q) : Ending marker q .stopping
  | sleeping (tid : Tid) (hputs : ∀ e ∈ q.puts, e.origin = .append)
      (hpc : ∀ u e, q.pc u = .putting e ↔ u = tid ∧ e = marker) : Ending marker q (.joining tid)
  | marked (o : Owner) (ls : List (Entry M)) (ho : o = .stopped ∨ ∃ tid, o = .joining tid)
      (hputs : q.puts = ls ++ [marker]) (hls : ∀ e ∈ ls, e.origin = .append) (hpc : NoneInPut q) : Ending marker q o

private theorem noneInPut_update {u : Tid} (h : ∀ u' e, q.pc u' = .putting e → u' = u)
    (hr : r.pc = Function.update q.pc u .idle) : NoneInPut r := by
  intro u' e he
  rw [hr,Function.update_apply] at he
  split at he
  · cases he
  · rename_i hne
    exact hne (h u' e he)

/-- A line is put while the owner lets the consumer run. -/
private theorem ending_append {marker : Entry M} {o : Owner} {tid : Tid} {e : Entry M} {woken : Option Tid}
    (h : Ending marker q o) (ho : o.running) (he : e.origin = .append)
    (hs : Queue.Effect q (.put tid e woken) r v) : Ending marker r o := by
  cases h with
  | lines _ _ hputs hpc =>
    obtain ⟨-,⟨hp,hr⟩ | ⟨hp,hr⟩⟩ := hs.ofPut
    · refine .lines o ho (by rwa [hp]) fun u e' hu => ?_
      rw [hr,Function.update_apply] at hu
      split at hu
      · cases hu
        exact he
      · exact hpc u e' hu
    · refine .lines o ho ?_ fun u e' hu => ?_
      · intro e' hm
        rw [hp] at hm
        rcases List.mem_append.mp hm with hm | hm
        · exact hputs e' hm
        · rw [List.mem_singleton.mp hm]
          exact he
      · rw [hr,Function.update_apply] at hu
        split at hu
        · cases hu
        · exact hpc u e' hu
  | stopping _ _ => exact absurd ho id
  | sleeping _ _ _ => exact absurd ho id
  | marked _ _ hend _ _ _ =>
    obtain rfl | ⟨_,rfl⟩ := hend <;> exact absurd ho id

/-- Stop puts the end marker, when nobody else is in Put. -/
private theorem ending_marker {marker : Entry M} {tid : Tid} {woken : Option Tid}
    (h : Ending marker q .stopping) (hs : Queue.Effect q (.put tid marker woken) r v) :
    Ending marker r (.joining tid) := by
  cases h with
  | lines _ ho _ _ => exact absurd ho id
  | marked _ _ hend _ _ _ => obtain hend | ⟨_,hend⟩ := hend <;> cases hend
  | stopping hputs hpc =>
    obtain ⟨-,⟨hp,hr⟩ | ⟨hp,hr⟩⟩ := hs.ofPut
    · refine .sleeping tid (by rwa [hp]) fun u e => ?_
      rw [hr,Function.update_apply]
      split
      · rename_i hu
        constructor
        · intro he
          cases he
          exact ⟨hu,rfl⟩
        · rintro ⟨-,rfl⟩
          rfl
      · rename_i hu
        constructor
        · intro he
          exact absurd he (hpc u e)
        · rintro ⟨heq,-⟩
          exact absurd heq hu
    · exact .marked _ q.puts (.inr ⟨tid,rfl⟩) hp hputs (noneInPut_update (fun u e hu => absurd hu (hpc u e)) hr)

/-- All other steps of the queue. -/
private theorem ending_step {marker : Entry M} {o : Owner} (h : Ending marker q o) (hs : Queue.Effect q a r v)
    (ha : ∀ u e woken, a ≠ .put u e woken) : Ending marker r o := by
  obtain ⟨hp,hr⟩ | ⟨u,e,hu,hp,hr⟩ := hs.notPut ha
  · -- the same messages in the same places
    cases h with
    | lines _ ho hputs hpc => exact .lines o ho (by rwa [hp]) fun u e hu => hpc u e ((hr u e).mp hu)
    | stopping hputs hpc => exact .stopping (by rwa [hp]) fun u e hu => hpc u e ((hr u e).mp hu)
    | sleeping tid hputs hpc => exact .sleeping tid (by rwa [hp]) fun u e => (hr u e).trans (hpc u e)
    | marked _ ls ho hputs hls hpc => exact .marked o ls ho (hp.trans hputs) hls fun u e hu => hpc u e ((hr u e).mp hu)
  · -- one of those who wait comes in
    cases h with
    | lines _ ho hputs hpc =>
      refine .lines o ho ?_ fun u' e' hu' => ?_
      · intro e' hm
        rw [hp] at hm
        rcases List.mem_append.mp hm with hm | hm
        · exact hputs e' hm
        · rw [List.mem_singleton.mp hm]
          exact hpc u e hu
      · rw [hr,Function.update_apply] at hu'
        split at hu'
        · cases hu'
        · exact hpc u' e' hu'
    | stopping hputs hpc => exact absurd hu (hpc u e)
    | sleeping tid hputs hpc =>
      obtain ⟨rfl,rfl⟩ := (hpc u e).mp hu
      exact .marked _ q.puts (.inr ⟨u,rfl⟩) hp hputs (noneInPut_update (fun u' e' hu' => ((hpc u' e').mp hu').1) hr)
    | marked _ ls ho hputs hls hpc => exact absurd hu (hpc u e)

private theorem Ending.running {q : Queue (Entry M)} {e : Entry M} {o o' : Owner} (h : Ending e q o) (ho : o.running)
    (ho' : o'.running) : Ending e q o' := by
  cases h with
  | lines _ _ hputs hpc => exact .lines _ ho' hputs hpc
  | stopping _ _ | sleeping _ _ _ => exact absurd ho id
  | marked _ _ hend _ _ _ => obtain rfl | ⟨_,rfl⟩ := hend <;> exact absurd ho id

private theorem before_marker {prev ls items : List (Entry M)} {e m : Entry M} (h : prev ++ e :: items = ls ++ [m])
    (hls : ∀ e ∈ ls, e.origin = .append) (he : e.origin = .stop) : prev = ls ∧ e = m := by
  obtain ⟨as,hls',has⟩ | ⟨bs,hprev,hbs⟩ := List.append_eq_append_iff.mp h
  · cases as with
    | nil =>
      cases has
      exact ⟨by simpa using hls'.symm,rfl⟩
    | cons a as =>
      cases has
      have hmem : e ∈ ls := by rw [hls']; simp
      have horigin := hls e hmem
      rw [he] at horigin
      cases horigin
  · cases bs with
    | nil =>
      cases hbs
      exact ⟨by simpa using hprev,rfl⟩
    | cons b bs => simp at hbs

/-- The flag and the consumer go with the owner's calls. -/
def Owned (running : Bool) (c : Consumer M) : Owner → Prop
  | .constructed => c = .notStarted
  | .starting => running = true
  | .started => running = true ∧ c ≠ .starting
  | .stopping | .joining _ => running = false ∧ c ≠ .starting
  | .stopped => running = false ∧ Finished c

/-- The consumer goes on in its loop. -/
private theorem Owned.move {running : Bool} {c c' : Consumer M} {o : Owner} (h : Owned running c o) (hn : c ≠ .notStarted)
    (hf : ¬ Finished c) (hc : c' ≠ .starting) : Owned running c' o := by
  cases o with
  | constructed => exact absurd h hn
  | starting => exact h
  | started | stopping | joining _ => exact ⟨h.1,hc⟩
  | stopped => exact absurd h.2 hf

end Queue

section Machine
variable {M : Type} [Message M] {threadId : Tid} {s t : State M}

def marker : Entry M := ⟨Message.endMarker,.stop⟩

/-- The messages so far were lines, and the file has exactly them. -/
def Spoken (prev : List (Entry M)) (output : List (List UInt8)) : Prop :=
  output = prev.map (fun e => Message.data e.msg) ∧ ∀ e ∈ prev, Message.empty e.msg = false

/-- What the consumer has made of what it took. -/
inductive Consumed (takes : List (Entry M)) (output : List (List UInt8)) : Consumer M → Prop where
  | waiting (c : Consumer M) (hc : c = .notStarted ∨ c = .starting ∨ c = .looping) (h : Spoken takes output) :
      Consumed takes output c
  | handling (e : Entry M) (prev : List (Entry M)) (htakes : takes = prev ++ [e]) (h : Spoken prev output) :
      Consumed takes output (.handling e)
  | finished (e : Entry M) (prev : List (Entry M)) (htakes : takes = prev ++ [e]) (h : Spoken prev output)
      (he : Message.empty e.msg = true) : Consumed takes output (.finished e)

structure Inv (threadId : Tid) (s : State M) : Prop where
  queue : s.queue.Inv
  taker : ∀ u, s.queue.pc u = .taking → u = threadId ∧ s.consumer = .looping
  consumed : Consumed s.queue.takes s.output s.consumer
  ending : Ending marker s.queue s.owner
  owned : Owned s.running s.consumer s.owner

/-- A step in the queue, by the consumer only where it is in front of Take or inside. -/
private theorem inv_advance {a : QueueLabel (Entry M)} {o : Owner} (h : Inv threadId s) (ho : Owned s.running s.consumer o)
    (ha : ∀ u woken, a = .take u woken → u = threadId ∧ s.consumer = .looping)
    (hend : ∀ r v, Queue.Effect s.queue a r v → Ending marker r o)
    (hs : State.advance { s with owner := o } a = .ok t) : Inv threadId t := by
  simp only [State.advance,bind_ok_iff,Except.ok.injEq] at hs
  obtain ⟨⟨r,v⟩,hr,rfl⟩ := hs
  have heff := Queue.advance_effect hr
  have htaker : ∀ u, Queue.InTake s.queue a u → u = threadId ∧ s.consumer = .looping := by
    intro u hin
    obtain ⟨⟨woken,heq⟩,-⟩ | ⟨-,hp⟩ := hin
    · exact ha u woken heq
    · exact h.taker u hp
  obtain ⟨htakes,rfl,hpc⟩ | ⟨u,e,hin,rfl,htakes,hpc⟩ := heff.taken
  · refine ⟨Queue.inv_advance h.queue hr,fun u hu => ?_,?_,hend r _ heff,ho⟩
    · exact (hpc u hu).elim (h.taker u) (htaker u)
    · simp only [htakes,Option.elim_none]
      exact h.consumed
  · obtain ⟨rfl,hloop⟩ := htaker u hin
    rw [hloop] at ho
    refine ⟨Queue.inv_advance h.queue hr,fun u' hu' => ?_,?_,hend r _ heff,
      ho.move (fun hc => by cases hc) id (fun hc => by cases hc)⟩
    · rw [hpc,Function.update_apply] at hu'
      split at hu'
      · cases hu'
      · rename_i hne
        exact absurd (h.taker u' hu').1 hne
    · have hcons := h.consumed
      rw [hloop] at hcons
      cases hcons with
      | waiting _ _ hspoken => exact .handling e s.queue.takes htakes hspoken

/-- Only a consumer in its loop takes. -/
private theorem Inv.not_taking (h : Inv threadId s) (hc : s.consumer ≠ .looping) (u : Tid) : s.queue.pc u ≠ .taking := by
  intro hu
  exact hc (h.taker u hu).2

private theorem inv_handle (h : Inv threadId s) (hs : s.handle = .ok t) : Inv threadId t := by
  unfold State.handle at hs
  split at hs
  · rename_i e he
    have hnone : s.consumer ≠ .looping := fun hc => by rw [he] at hc; cases hc
    have hcons := h.consumed
    have howned := h.owned
    rw [he] at hcons howned
    cases hcons with
    | waiting _ hc _ => obtain hc | hc | hc := hc <;> cases hc
    | handling _ prev htakes hspoken =>
      split at hs
      · rename_i hempty
        simp only [bind_ok_iff,Except.ok.injEq] at hs
        obtain ⟨-,-,rfl⟩ := hs
        exact ⟨h.queue,fun u hu => absurd hu (h.not_taking hnone u),.finished e prev htakes hspoken hempty,h.ending,
          howned.move (fun hc => by cases hc) id (fun hc => by cases hc)⟩
      · rename_i hempty
        cases hs
        refine ⟨h.queue,fun u hu => absurd hu (h.not_taking hnone u),.waiting _ (.inr (.inr rfl)) ⟨?_,?_⟩,h.ending,
          howned.move (fun hc => by cases hc) id (fun hc => by cases hc)⟩
        · rw [htakes,List.map_append,← hspoken.1]
          rfl
        · intro e' hm
          rw [htakes] at hm
          rcases List.mem_append.mp hm with hm | hm
          · exact hspoken.2 e' hm
          · rw [List.mem_singleton.mp hm]
            exact Bool.eq_false_of_not_eq_true hempty
  · cases hs

private theorem inv_start (h : Inv threadId s) (ho : s.owner = .constructed) :
    Inv threadId { s with running := true, consumer := .starting, owner := .starting } := by
  have hc : s.consumer = .notStarted := by
    have howned := h.owned
    rwa [ho] at howned
  have hcons := h.consumed
  have hend := h.ending
  rw [hc] at hcons
  rw [ho] at hend
  have hnone : s.consumer ≠ .looping := fun hl => by rw [hc] at hl; cases hl
  refine ⟨h.queue,fun u hu => absurd hu (h.not_taking hnone u),?_,hend.running trivial trivial,rfl⟩
  cases hcons with
  | waiting _ _ hspoken => exact .waiting _ (.inr (.inl rfl)) hspoken

private theorem inv_countDown (h : Inv threadId s) (hc : s.consumer = .starting) :
    Inv threadId { s with consumer := .looping } := by
  have hcons := h.consumed
  have howned := h.owned
  rw [hc] at hcons howned
  have hnone : s.consumer ≠ .looping := fun hl => by rw [hc] at hl; cases hl
  refine ⟨h.queue,fun u hu => absurd hu (h.not_taking hnone u),?_,h.ending,
    howned.move (fun hc => by cases hc) id (fun hc => by cases hc)⟩
  cases hcons with
  | waiting _ _ hspoken => exact .waiting _ (.inr (.inr rfl)) hspoken

private theorem inv_stop (h : Inv threadId s) (ho : s.owner = .started) (hq : QueueQuiet s.queue) :
    Inv threadId { s with running := false, owner := .stopping } := by
  have hend := h.ending
  have howned := h.owned
  rw [ho] at hend howned
  refine ⟨h.queue,h.taker,h.consumed,?_,⟨rfl,howned.2⟩⟩
  cases hend with
  | lines _ _ hputs hpc =>
    refine .stopping hputs fun u e hu => ?_
    obtain hin | hin := (h.queue.putting u).mp ⟨e,hu⟩
    · rw [hq.1] at hin
      exact absurd hin (Finset.notMem_empty u)
    · rw [hq.2] at hin
      exact absurd hin (Finset.notMem_empty u)
  | marked _ _ hend _ _ _ => obtain hend | ⟨_,hend⟩ := hend <;> cases hend

private theorem inv_join {tid : Tid} (h : Inv threadId s) (ho : s.owner = .joining tid) (hidle : ∀ e, s.queue.pc tid ≠ .putting e)
    (hf : Finished s.consumer) : Inv threadId { s with owner := .stopped } := by
  have hend := h.ending
  have howned := h.owned
  rw [ho] at hend howned
  refine ⟨h.queue,h.taker,h.consumed,?_,⟨howned.1,hf⟩⟩
  cases hend with
  | lines _ ho _ _ => exact absurd ho id
  | sleeping _ hputs hpc => exact absurd ((hpc tid marker).mpr ⟨rfl,rfl⟩) (hidle marker)
  | marked _ ls _ hputs hls hpc => exact .marked _ ls (.inl rfl) hputs hls hpc

theorem inv_step {a : Label} (h : Inv threadId s) (hs : step threadId s a = .ok t) : Inv threadId t := by
  cases a with
  | start =>
    simp only [step,bind_ok_iff,ensure_ok_iff,Except.ok.injEq] at hs
    obtain ⟨-,ho,rfl⟩ := hs
    exact inv_start h ho
  | countDown =>
    simp only [step,bind_ok_iff,ensure_ok_iff,Except.ok.injEq] at hs
    obtain ⟨-,hc,-,-,rfl⟩ := hs
    exact inv_countDown h hc
  | startReturns =>
    simp only [step,bind_ok_iff,ensure_ok_iff,Except.ok.injEq] at hs
    obtain ⟨-,⟨ho,hc⟩,rfl⟩ := hs
    have hend := h.ending
    have howned := h.owned
    rw [ho] at hend howned
    exact ⟨h.queue,h.taker,h.consumed,hend.running trivial trivial,⟨howned,hc⟩⟩
  | append tid line woken =>
    simp only [step,bind_ok_iff,ensure_ok_iff] at hs
    obtain ⟨-,⟨-,ho⟩,m,-,hs⟩ := hs
    exact inv_advance h h.owned (fun u woken heq => by cases heq) (fun r v heff => ending_append h.ending ho rfl heff) hs
  | take woken =>
    simp only [step,bind_ok_iff,ensure_ok_iff] at hs
    obtain ⟨-,hc,hs⟩ := hs
    exact inv_advance h h.owned (fun u woken heq => by cases heq; exact ⟨rfl,hc⟩)
      (fun r v heff => ending_step h.ending heff fun _ _ _ heq => by cases heq) hs
  | resume tid woken | wakeSpuriously tid =>
    exact inv_advance h h.owned (fun u woken heq => by cases heq)
      (fun r v heff => ending_step h.ending heff fun _ _ _ heq => by cases heq) hs
  | handle => exact inv_handle h hs
  | stop =>
    simp only [step,bind_ok_iff,ensure_ok_iff,Except.ok.injEq] at hs
    obtain ⟨-,⟨ho,hq⟩,rfl⟩ := hs
    exact inv_stop h ho hq
  | putEndMarker tid woken =>
    simp only [step,bind_ok_iff,ensure_ok_iff] at hs
    obtain ⟨-,⟨ho,-⟩,hs⟩ := hs
    have hend := h.ending
    have howned := h.owned
    rw [ho] at hend howned
    exact inv_advance h (o := .joining tid) howned (fun u woken heq => by cases heq)
      (fun r v heff => ending_marker hend heff) hs
  | join =>
    simp only [step] at hs
    split at hs
    · rename_i tid ho
      simp only [bind_ok_iff,ensure_ok_iff,Except.ok.injEq] at hs
      obtain ⟨-,⟨hidle,hf⟩,rfl⟩ := hs
      refine inv_join h ho (fun e he => ?_) hf
      rw [hidle] at he
      cases he
    · cases hs

theorem inv_initial {c : Container (Entry M)} (hc : c.items = []) : Inv threadId (initial c) := by
  refine ⟨Queue.inv_initial hc,fun u hu => (by cases hu),.waiting _ (.inl rfl) ⟨rfl,fun e he => (by cases he)⟩,
    .lines _ trivial (fun e he => by cases he) (fun u e he => by cases he),rfl⟩

theorem reachable_inv (h : (machine threadId M).Reachable s) : Inv threadId s := by
  refine h.invariant (P := Inv threadId) (fun s hs => ?_) (fun s a t hi hs => inv_step hi hs)
  obtain hs | ⟨n,hs⟩ := hs
  · rw [hs]
    exact inv_initial rfl
  · rw [hs]
    exact inv_initial rfl

/-- The lines that Append has put, in the order of the queue. -/
def lines (s : State M) : List (List UInt8) :=
  (s.queue.puts.filter fun e => e.origin = .append).map fun e => Message.data e.msg

private theorem mem_lines {e : Entry M} (he : e ∈ s.queue.puts) (ho : e.origin = .append) : Message.data e.msg ∈ lines s :=
  List.mem_map_of_mem (List.mem_filter.mpr ⟨he,decide_eq_true ho⟩)

private theorem lines_eq {ls : List (Entry M)} (hputs : s.queue.puts = ls ++ [marker]) (hls : ∀ e ∈ ls, e.origin = .append) :
    lines s = ls.map fun e => Message.data e.msg := by
  have hkeep : ls.filter (fun e => e.origin = .append) = ls :=
    List.filter_eq_self.mpr fun e he => decide_eq_true (hls e he)
  rw [lines,hputs,List.filter_append,hkeep]
  simp [marker]

/-- What was put by Stop is the end marker, and then the file has all lines. -/
theorem finished_marker {e : Entry M} (h : Inv threadId s) (hf : s.consumer = .finished e) (ho : e.origin = .stop) :
    e = marker ∧ s.output = lines s ∧ ∀ line ∈ lines s, line ≠ [] := by
  have hcons := h.consumed
  rw [hf] at hcons
  cases hcons with
  | waiting _ hc _ => obtain hc | hc | hc := hc <;> cases hc
  | finished _ prev htakes hspoken hempty =>
    have hfifo := h.queue.fifo
    rw [htakes,List.append_assoc,List.singleton_append] at hfifo
    have hmem : e ∈ s.queue.puts := by rw [← hfifo]; simp
    have hnot : ¬ ∀ e ∈ s.queue.puts, e.origin = .append := by
      intro hall
      have horigin := hall e hmem
      rw [ho] at horigin
      cases horigin
    have hmarked : ∃ ls, s.queue.puts = ls ++ [marker] ∧ ∀ e ∈ ls, e.origin = .append := by
      have hend := h.ending
      generalize s.owner = o at hend
      cases hend with
      | lines _ _ hputs _ => exact absurd hputs hnot
      | stopping hputs _ => exact absurd hputs hnot
      | sleeping _ hputs _ => exact absurd hputs hnot
      | marked _ ls _ hputs hls _ => exact ⟨ls,hputs,hls⟩
    obtain ⟨ls,hputs,hls⟩ := hmarked
    obtain ⟨rfl,rfl⟩ := before_marker (hfifo.trans hputs) hls ho
    have hlines := lines_eq hputs hls
    refine ⟨rfl,hspoken.1.trans hlines.symm,fun line hline => ?_⟩
    rw [hlines,List.mem_map] at hline
    obtain ⟨e,he,rfl⟩ := hline
    intro hnil
    have hne := hspoken.2 e he
    rw [Message.empty,hnil] at hne
    cases hne

theorem origin_stop {e : Entry M} (h : Inv threadId s) (hlines : ∀ line ∈ lines s, line ≠ [])
    (htaken : e ∈ s.queue.takes) (hempty : Message.empty e.msg = true) : e.origin = .stop := by
  cases ho : e.origin with
  | stop => rfl
  | append =>
    have hmem : e ∈ s.queue.puts := by
      rw [← h.queue.fifo]
      exact List.mem_append_left _ htaken
    exact absurd (List.isEmpty_iff.mp hempty) (hlines _ (mem_lines hmem ho))

private theorem stopped_of_stop {e : Entry M} (h : Inv threadId s) (he : e ∈ s.queue.puts) (ho : e.origin = .stop) :
    s.running = false := by
  have hend := h.ending
  have howned := h.owned
  generalize s.owner = o at howned hend
  cases hend with
  | lines _ _ hputs _ =>
    have horigin := hputs e he
    rw [ho] at horigin
    cases horigin
  | stopping _ _ => exact howned.1
  | sleeping _ _ _ => exact howned.1
  | marked _ _ hend _ _ _ => obtain rfl | ⟨_,rfl⟩ := hend <;> exact howned.1

/-- The assertion fails in one place: the consumer has an empty message and still runs. -/
private theorem assertion_cases {a : Label} (h : step threadId s a = .error (.assertion "!m_bRunning")) :
    ∃ e, s.consumer = .handling e ∧ Message.empty e.msg = true ∧ s.running = true := by
  have hadv : ∀ {s : State M} {a}, s.advance a ≠ .error (.assertion "!m_bRunning") := by
    intro s a ha
    simp only [State.advance,bind_error_iff] at ha
    obtain ha | ⟨_,-,ha⟩ := ha
    · exact Queue.advance_ne_assertion _ _ _ ha
    · cases ha
  cases a with
  | handle =>
    simp only [step,State.handle] at h
    split at h
    · rename_i e he
      split at h
      · rename_i hempty
        simp only [bind_error_iff,ensure_error_iff] at h
        obtain ⟨hrun,-⟩ | ⟨_,-,h⟩ := h
        · exact ⟨e,he,hempty,Bool.eq_true_of_not_eq_false hrun⟩
        · cases h
      · cases h
    · cases h
  | resume | wakeSpuriously => exact absurd h hadv
  | append tid line woken =>
    simp only [step,bind_error_iff,ensure_error_iff] at h
    obtain ⟨-,h⟩ | ⟨_,-,h | ⟨m,-,h⟩⟩ := h
    · cases h
    · exact absurd (Message.ofLine_error line _ h).2 (by decide)
    · exact absurd h hadv
  | take woken | putEndMarker tid woken =>
    simp only [step,bind_error_iff,ensure_error_iff] at h
    obtain ⟨-,h⟩ | ⟨_,-,h⟩ := h
    · cases h
    · exact absurd h hadv
  | start | startReturns | stop =>
    simp only [step,bind_error_iff,ensure_error_iff] at h
    obtain ⟨-,h⟩ | ⟨_,-,h⟩ := h <;> cases h
  | countDown =>
    simp only [step,bind_error_iff,ensure_error_iff] at h
    obtain ⟨-,h⟩ | ⟨_,-,⟨-,h⟩ | ⟨_,-,h⟩⟩ := h
    · cases h
    · exact absurd h (by decide)
    · cases h
  | join =>
    simp only [step] at h
    split at h
    · simp only [bind_error_iff,ensure_error_iff] at h
      obtain ⟨-,h⟩ | ⟨_,-,h⟩ := h <;> cases h
    · cases h

/-- Over either queue and for either message type, in every interleaving: as long as no
appended line is empty, the consumer's assertion holds and it leaves its loop only for
the end marker, with every line in the file in queue order; and when Stop has
returned, that is so exactly when no appended line was empty. -/
theorem queue_logging_complete (h : (machine threadId M).Reachable s) :
    ((∀ line ∈ lines s, line ≠ []) →
      (∀ a, step threadId s a ≠ .error (.assertion "!m_bRunning")) ∧
        ∀ e, s.consumer = .finished e → e = marker ∧ s.output = lines s) ∧
    (s.owner = .stopped →
      ((∃ e, s.consumer = .finished e ∧ e.origin = .stop ∧ s.output = lines s) ↔ ∀ line ∈ lines s, line ≠ [])) := by
  have hi := reachable_inv h
  have hfinished : (∀ line ∈ lines s, line ≠ []) → ∀ e, s.consumer = .finished e → e = marker ∧ s.output = lines s := by
    intro hne e he
    have hcons := hi.consumed
    rw [he] at hcons
    cases hcons with
    | waiting _ hc _ => obtain hc | hc | hc := hc <;> cases hc
    | finished _ prev htakes _ hempty =>
      have htaken : e ∈ s.queue.takes := by rw [htakes]; simp
      obtain ⟨hm,ho,-⟩ := finished_marker hi he (origin_stop hi hne htaken hempty)
      exact ⟨hm,ho⟩
  refine ⟨fun hne => ⟨fun a ha => ?_,hfinished hne⟩,fun ho => ⟨?_,fun hne => ?_⟩⟩
  · obtain ⟨e,he,hempty,hrun⟩ := assertion_cases ha
    have hcons := hi.consumed
    rw [he] at hcons
    cases hcons with
    | waiting _ hc _ => obtain hc | hc | hc := hc <;> cases hc
    | handling _ prev htakes _ =>
      have htaken : e ∈ s.queue.takes := by rw [htakes]; simp
      have hput : e ∈ s.queue.puts := by
        rw [← hi.queue.fifo]
        exact List.mem_append_left _ htaken
      rw [stopped_of_stop hi hput (origin_stop hi hne htaken hempty)] at hrun
      cases hrun
  · rintro ⟨e,he,horigin,-⟩
    exact (finished_marker hi he horigin).2.2
  · have howned := hi.owned
    rw [ho] at howned
    cases hc : s.consumer with
    | finished e =>
      obtain ⟨rfl,hout⟩ := hfinished hne e hc
      exact ⟨marker,rfl,rfl,hout⟩
    | notStarted | starting | looping | handling _ =>
      rw [hc] at howned
      exact absurd howned.2 id

/-- An empty line reaches a running consumer, whose assertion fails. -/
theorem emptyLine_fails_assertion : ∃ s : State LogString, (machine 0 LogString).Reachable s ∧
    lines s = [[]] ∧ step 0 s .handle = .error (.assertion "!m_bRunning") := by
  let labels : List Label := [.start,.countDown,.startReturns,.append 1 [] none,.take none]
  obtain ⟨s,hr,hv⟩ := (machine 0 LogString).exists_reachable (.inl rfl) labels
    (fun s => (s.running,lines s,(step 0 s .handle).map fun _ => ())) (b := (true,[[]],.error (.assertion "!m_bRunning"))) (by decide +kernel)
  simp only [Prod.mk.injEq] at hv
  exact ⟨s,hr,hv.2.1,(map_error_iff _ _ _).mp hv.2.2⟩

/-- Two lines go through a queue with one place, and the owner stops. -/
theorem queue_logging_complete_twoLines : ∃ s : State LogMessage, (machine 0 LogMessage).Reachable s ∧
    s.owner = .stopped ∧ lines s = [[104,105],[33]] ∧ ∃ e, s.consumer = .finished e ∧ e.origin = .stop ∧ s.output = lines s := by
  let labels : List Label := [.start,.countDown,.append 1 [104,105] none,.append 2 [33] none,.startReturns,
    .take (some 2),.resume 2 none,.handle,.take none,.handle,.stop,.putEndMarker 3 none,.take none,.handle,.join]
  obtain ⟨s,hr,hv⟩ := (machine 0 LogMessage).exists_reachable (.inr ⟨1,rfl⟩) labels
    (fun s => (s.owner,lines s)) (b := (.stopped,[[104,105],[33]])) (by decide +kernel)
  simp only [Prod.mk.injEq] at hv
  obtain ⟨ho,hl⟩ := hv
  refine ⟨s,hr,ho,hl,((queue_logging_complete hr).2 ho).mpr ?_⟩
  rw [hl]
  decide

end Machine
end AsyncLoggingT
end LinuxServer.Logging
