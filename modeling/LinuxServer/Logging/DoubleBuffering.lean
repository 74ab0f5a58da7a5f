import LinuxServer.Lib.Machine
import LinuxServer.Lib.Chunks
import LinuxServer.Thread.Mutex

/-! Double-buffered logging: buffers go from the producers to the consumer and back, and
never run out. Every line is in one place, and the drop policy is the only way out; but
Stop may come when the consumer swaps no more. -/
namespace LinuxServer.Logging
open LinuxServer.Lib

/-- The bytes up to m_pCur. -/
structure FixedBuffer (SIZE : Nat) where
  data : List UInt8
  fits : data.length ≤ SIZE

namespace FixedBuffer
variable {SIZE : Nat}

def new : FixedBuffer SIZE := ⟨[],Nat.zero_le _⟩

def getAvail (b : FixedBuffer SIZE) : Nat := SIZE - b.data.length

/-- What does not fit is left out. -/
def append (b : FixedBuffer SIZE) (line : List UInt8) : FixedBuffer SIZE :=
  if h : line.length < b.getAvail then ⟨b.data ++ line,by rw [List.length_append]; simp only [getAvail] at h; omega⟩ else b

def reset (_ : FixedBuffer SIZE) : FixedBuffer SIZE := new

theorem append_data {b : FixedBuffer SIZE} {line : List UInt8} (h : line.length < b.getAvail) :
    (b.append line).data = b.data ++ line := by
  rw [append,dif_pos h]

end FixedBuffer

namespace AsyncLoggingDoubleBuffering

def largeBuffer : Nat := 4000 * 1000

/-- A call of Append of the LogFile: a buffer, or the notice for those dropped. -/
inductive Record (SIZE : Nat) where
  | buffer (b : FixedBuffer SIZE)
  | dropMsg (dropped : List (FixedBuffer SIZE))

def Record.written {SIZE : Nat} : Record SIZE → List UInt8
  | .buffer b => b.data
  | .dropMsg _ => "Dropped log messages\n".toUTF8.data.toList

/-- Where the consumer is in threadFunc. -/
inductive Consumer where
  | notStarted
  | starting
  | testRunning
  /-- In front of the mutex, or in WaitForSeconds. -/
  | locking
  | inWait
  /-- Out of the critical section with the swapped buffers. -/
  | swapped
  | writing (n : Nat)
  | recycling
  | finished
  deriving DecidableEq

inductive Owner where
  | constructed
  | starting
  | started
  | stopping
  | stopped
  deriving DecidableEq

/-- The lines appended, in the order of the critical sections, and the vectors
swapped out, one an iteration, are recorded for the statements only. -/
structure State (SIZE : Nat) where
  running : Bool
  curBuffer : Option (FixedBuffer SIZE)
  nextBuffer : Option (FixedBuffer SIZE)
  buffers : List (FixedBuffer SIZE)
  consumer : Consumer
  /-- The consumer's own. -/
  newBuffer1 : Option (FixedBuffer SIZE)
  newBuffer2 : Option (FixedBuffer SIZE)
  buffersToWrite : List (FixedBuffer SIZE)
  owner : Owner
  output : List (Record SIZE)
  lines : List (List UInt8)
  batches : List (List (FixedBuffer SIZE))

inductive Label where
  | start
  | countDown
  | startReturns
  | append (line : List UInt8)
  | testRunning
  /-- The critical section, up to WaitForSeconds if it waits. -/
  | lock
  /-- WaitForSeconds returns, for whatever reason. -/
  | wake
  | drop
  | write
  | recycle
  | stop
  | join
  deriving DecidableEq

section Machine
variable {SIZE : Nat}

def State.append (s : State SIZE) (line : List UInt8) : Except Halt (State SIZE) :=
  match s.curBuffer with
  | none => .error .freed
  | some b =>
    if line.length < b.getAvail then
      .ok { s with curBuffer := some (b.append line), lines := s.lines ++ [line] }
    else .ok { s with
      buffers := s.buffers ++ [b]
      curBuffer := some ((s.nextBuffer.getD .new).append line)
      nextBuffer := none
      lines := s.lines ++ [line] }

/-- The critical section behind the wait. -/
def State.swap (s : State SIZE) : Except Halt (State SIZE) :=
  match s.curBuffer with
  | none => .error .freed
  | some b => .ok { s with
      buffersToWrite := s.buffers ++ [b]
      buffers := s.buffersToWrite
      curBuffer := s.newBuffer1
      newBuffer1 := none
      nextBuffer := s.nextBuffer <|> s.newBuffer2
      newBuffer2 := if s.nextBuffer.isNone then none else s.newBuffer2
      batches := s.batches ++ [s.buffers ++ [b]]
      consumer := .swapped }

/-- One of newBuffer1 and newBuffer2 comes back from the end of buffersToWrite. -/
def refill (newBuffer : Option (FixedBuffer SIZE)) (buffersToWrite : List (FixedBuffer SIZE)) :
    Except Halt (Option (FixedBuffer SIZE) × List (FixedBuffer SIZE)) :=
  match newBuffer with
  | some b => .ok (some b,buffersToWrite)
  | none => do
    ensure (.assertion "!buffersToWrite.empty()") (buffersToWrite ≠ [])
    .ok (buffersToWrite.getLast?.map FixedBuffer.reset,buffersToWrite.dropLast)

def State.recycle (s : State SIZE) : Except Halt (State SIZE) := do
  let b := if 2 < s.buffersToWrite.length then s.buffersToWrite.take 2 else s.buffersToWrite
  let (newBuffer1,b) ← refill s.newBuffer1 b
  let (newBuffer2,_) ← refill s.newBuffer2 b
  .ok { s with newBuffer1 := newBuffer1, newBuffer2 := newBuffer2, buffersToWrite := [], consumer := .testRunning }

/-- The assertions at the top of the loop; zero-length buffers only. -/
def Empty (b : Option (FixedBuffer SIZE)) : Prop := b.map FixedBuffer.data = some []

instance (b : Option (FixedBuffer SIZE)) : Decidable (Empty b) := inferInstanceAs (Decidable (_ = _))

def step (s : State SIZE) : Label → Except Halt (State SIZE)
  | .start => do
    ensure .notEnabled (s.owner = .constructed)
    .ok { s with running := true, consumer := .starting, owner := .starting }
  | .countDown => do
    ensure .notEnabled (s.consumer = .starting)
    ensure (.assertion "m_bRunning") (s.running = true)
    .ok { s with newBuffer1 := some .new, newBuffer2 := some .new, consumer := .testRunning }
  | .startReturns => do
    ensure .notEnabled (s.owner = .starting ∧ s.consumer ≠ .starting)
    .ok { s with owner := .started }
  | .append line => s.append line
  | .testRunning => do
    ensure .notEnabled (s.consumer = .testRunning)
    if s.running then do
      ensure (.assertion "NULL != newBuffer1 && 0 == newBuffer1->GetLength()") (Empty s.newBuffer1)
      ensure (.assertion "NULL != newBuffer2 && 0 == newBuffer2->GetLength()") (Empty s.newBuffer2)
      ensure (.assertion "buffersToWrite.empty()") (s.buffersToWrite.isEmpty = true)
      .ok { s with consumer := .locking }
    else .ok { s with consumer := .finished }
  | .lock => do
    ensure .notEnabled (s.consumer = .locking)
    if s.buffers.isEmpty then s.swap else .ok { s with consumer := .inWait }
  | .wake => do
    ensure .notEnabled (s.consumer = .inWait)
    s.swap
  | .drop => do
    ensure .notEnabled (s.consumer = .swapped)
    ensure (.assertion "!buffersToWrite.empty()") (s.buffersToWrite.isEmpty = false)
    if 25 < s.buffersToWrite.length then
      let kept := s.buffersToWrite.length - 2
      .ok { s with
        output := s.output ++ [.dropMsg (s.buffersToWrite.take kept)]
        buffersToWrite := s.buffersToWrite.drop kept
        consumer := .writing 0 }
    else .ok { s with consumer := .writing 0 }
  | .write =>
    match s.consumer with
    | .writing n =>
      match s.buffersToWrite[n]? with
      | some b => .ok { s with output := s.output ++ [.buffer b], consumer := .writing (n + 1) }
      | none => .ok { s with consumer := .recycling }
    | _ => .error .notEnabled
  | .recycle => do
    ensure .notEnabled (s.consumer = .recycling)
    s.recycle
  | .stop => do
    ensure .notEnabled (s.owner = .started)
    .ok { s with running := false, owner := .stopping }
  | .join => do
    ensure .notEnabled (s.owner = .stopping ∧ s.consumer = .finished)
    .ok { s with owner := .stopped }

def initial : State SIZE := {
  running := false
  curBuffer := some .new
  nextBuffer := some .new
  buffers := []
  consumer := .notStarted
  newBuffer1 := none
  newBuffer2 := none
  buffersToWrite := []
  owner := .constructed
  output := []
  lines := []
  batches := [] }

def machine (SIZE : Nat) : Machine (State SIZE) Label Halt := ⟨fun s => s = initial,step⟩

end Machine

section Moves
variable {SIZE : Nat}

/-- All that a step can do. -/
inductive Move (s : State SIZE) : Label → State SIZE → Prop where
  | start (ho : s.owner = .constructed) :
      Move s .start { s with running := true, consumer := .starting, owner := .starting }
  | countDown (hc : s.consumer = .starting) :
      Move s .countDown { s with newBuffer1 := some .new, newBuffer2 := some .new, consumer := .testRunning }
  | startReturns (ho : s.owner = .starting) (hc : s.consumer ≠ .starting) : Move s .startReturns { s with owner := .started }
  | fill (line : List UInt8) (b : FixedBuffer SIZE) (hb : s.curBuffer = some b) (hfit : line.length < b.getAvail) :
      Move s (.append line) { s with curBuffer := some (b.append line), lines := s.lines ++ [line] }
  | rotate (line : List UInt8) (b : FixedBuffer SIZE) (hb : s.curBuffer = some b) :
      Move s (.append line) { s with
        buffers := s.buffers ++ [b], curBuffer := some ((s.nextBuffer.getD .new).append line),
        nextBuffer := none, lines := s.lines ++ [line] }
  | goOn (hc : s.consumer = .testRunning) (hrun : s.running = true) : Move s .testRunning { s with consumer := .locking }
  | leave (hc : s.consumer = .testRunning) (hrun : s.running = false) : Move s .testRunning { s with consumer := .finished }
  | wait (hc : s.consumer = .locking) : Move s .lock { s with consumer := .inWait }
  | swap (a : Label) (b : FixedBuffer SIZE) (ha : a = .lock ∨ a = .wake) (hc : s.consumer = .locking ∨ s.consumer = .inWait)
      (hb : s.curBuffer = some b) :
      Move s a { s with
        buffersToWrite := s.buffers ++ [b], buffers := s.buffersToWrite, curBuffer := s.newBuffer1, newBuffer1 := none,
        nextBuffer := s.nextBuffer <|> s.newBuffer2, newBuffer2 := if s.nextBuffer.isNone then none else s.newBuffer2,
        batches := s.batches ++ [s.buffers ++ [b]], consumer := .swapped }
  | drop (hc : s.consumer = .swapped) (hmany : 25 < s.buffersToWrite.length) :
      Move s .drop { s with
        output := s.output ++ [.dropMsg (s.buffersToWrite.take (s.buffersToWrite.length - 2))],
        buffersToWrite := s.buffersToWrite.drop (s.buffersToWrite.length - 2), consumer := .writing 0 }
  | keep (hc : s.consumer = .swapped) (hfew : s.buffersToWrite.length ≤ 25) : Move s .drop { s with consumer := .writing 0 }
  | write (n : Nat) (b : FixedBuffer SIZE) (hc : s.consumer = .writing n) (hb : s.buffersToWrite[n]? = some b) :
      Move s .write { s with output := s.output ++ [.buffer b], consumer := .writing (n + 1) }
  | written (n : Nat) (hc : s.consumer = .writing n) (hend : s.buffersToWrite.length ≤ n) :
      Move s .write { s with consumer := .recycling }
  | recycle (newBuffer1 newBuffer2 : Option (FixedBuffer SIZE)) (w w₁ w₂ : List (FixedBuffer SIZE)) (hc : s.consumer = .recycling)
      (hone : refill s.newBuffer1 w = .ok (newBuffer1,w₁)) (htwo : refill s.newBuffer2 w₁ = .ok (newBuffer2,w₂)) :
      Move s .recycle { s with newBuffer1 := newBuffer1, newBuffer2 := newBuffer2, buffersToWrite := [], consumer := .testRunning }
  | stop (ho : s.owner = .started) : Move s .stop { s with running := false, owner := .stopping }
  | join (ho : s.owner = .stopping) (hc : s.consumer = .finished) : Move s .join { s with owner := .stopped }

variable {s t : State SIZE} {a : Label}

private theorem move_of_append {line : List UInt8} (h : s.append line = .ok t) : Move s (.append line) t := by
  unfold State.append at h
  split at h
  · cases h
  · rename_i b hb
    split at h
    · rename_i hfit
      cases h
      exact .fill line b hb hfit
    · cases h
      exact .rotate line b hb

private theorem move_of_swap (ha : a = .lock ∨ a = .wake) (hc : s.consumer = .locking ∨ s.consumer = .inWait)
    (h : s.swap = .ok t) : Move s a t := by
  unfold State.swap at h
  split at h
  · cases h
  · rename_i b hb
    cases h
    exact .swap a b ha hc hb

theorem move_of_step (h : step s a = .ok t) : Move s a t := by
  cases a with
  | start =>
    simp only [step,bind_ok_iff,ensure_ok_iff,Except.ok.injEq] at h
    obtain ⟨-,ho,rfl⟩ := h
    exact .start ho
  | countDown =>
    simp only [step,bind_ok_iff,ensure_ok_iff,Except.ok.injEq] at h
    obtain ⟨-,hc,-,-,rfl⟩ := h
    exact .countDown hc
  | startReturns =>
    simp only [step,bind_ok_iff,ensure_ok_iff,Except.ok.injEq] at h
    obtain ⟨-,⟨ho,hc⟩,rfl⟩ := h
    exact .startReturns ho hc
  | append line => exact move_of_append h
  | testRunning =>
    simp only [step,bind_ok_iff,ensure_ok_iff] at h
    obtain ⟨-,hc,h⟩ := h
    split at h
    · rename_i hrun
      simp only [bind_ok_iff,ensure_ok_iff,Except.ok.injEq] at h
      obtain ⟨-,-,-,-,-,-,rfl⟩ := h
      exact .goOn hc hrun
    · rename_i hrun
      cases h
      exact .leave hc (Bool.eq_false_of_not_eq_true hrun)
  | lock =>
    simp only [step,bind_ok_iff,ensure_ok_iff] at h
    obtain ⟨-,hc,h⟩ := h
    split at h
    · exact move_of_swap (.inl rfl) (.inl hc) h
    · cases h
      exact .wait hc
  | wake =>
    simp only [step,bind_ok_iff,ensure_ok_iff] at h
    obtain ⟨-,hc,h⟩ := h
    exact move_of_swap (.inr rfl) (.inr hc) h
  | drop =>
    simp only [step,bind_ok_iff,ensure_ok_iff] at h
    obtain ⟨-,hc,-,-,h⟩ := h
    split at h
    · rename_i hmany
      cases h
      exact .drop hc hmany
    · rename_i hfew
      cases h
      exact .keep hc (Nat.le_of_not_lt hfew)
  | write =>
    simp only [step] at h
    split at h
    · rename_i n hc
      split at h
      · rename_i b hb
        cases h
        exact .write n b hc hb
      · rename_i hb
        cases h
        exact .written n hc (List.getElem?_eq_none_iff.mp hb)
    · cases h
  | recycle =>
    simp only [step,State.recycle,bind_ok_iff,ensure_ok_iff,Except.ok.injEq,Prod.exists] at h
    obtain ⟨-,hc,newBuffer1,w₁,hone,newBuffer2,w₂,htwo,rfl⟩ := h
    exact .recycle newBuffer1 newBuffer2 _ w₁ w₂ hc hone htwo
  | stop =>
    simp only [step,bind_ok_iff,ensure_ok_iff,Except.ok.injEq] at h
    obtain ⟨-,ho,rfl⟩ := h
    exact .stop ho
  | join =>
    simp only [step,bind_ok_iff,ensure_ok_iff,Except.ok.injEq] at h
    obtain ⟨-,⟨ho,hc⟩,rfl⟩ := h
    exact .join ho hc

end Moves

section Recycling
variable {SIZE : Nat} {s t : State SIZE} {a : Label}

/-- What the consumer holds by itself, by the place it is at. -/
def Own (c : Consumer) (newBuffer1 newBuffer2 : Option (FixedBuffer SIZE)) (buffersToWrite : List (FixedBuffer SIZE)) : Prop :=
  match c with
  | .notStarted | .starting => buffersToWrite = []
  | .testRunning | .locking | .inWait | .finished => Empty newBuffer1 ∧ Empty newBuffer2 ∧ buffersToWrite = []
  | .swapped | .writing _ | .recycling =>
    newBuffer1 = none ∧ (Empty newBuffer2 ∧ buffersToWrite ≠ [] ∨ newBuffer2 = none ∧ 2 ≤ buffersToWrite.length)

/-- The flag and the consumer go with the owner's calls. -/
def Owned (running : Bool) (c : Consumer) : Owner → Prop
  | .constructed => c = .notStarted
  | .starting => running = true ∧ c ≠ .notStarted
  | .started => running = true ∧ c ≠ .notStarted ∧ c ≠ .starting
  | .stopping => running = false ∧ c ≠ .notStarted ∧ c ≠ .starting
  | .stopped => running = false ∧ c = .finished

/-- Where the spare buffers are, however long the lines. -/
structure Stock (s : State SIZE) : Prop where
  cur : ∃ b, s.curBuffer = some b
  next : ∀ b, s.nextBuffer = some b → b.data = []
  /-- Then two buffers at least are swapped out. -/
  rotated : s.nextBuffer = none → s.buffers ≠ []
  own : Own s.consumer s.newBuffer1 s.newBuffer2 s.buffersToWrite
  owned : Owned s.running s.consumer s.owner

/-- It was left for a line it had no room for. -/
def Full (lines : List (List UInt8)) (b : FixedBuffer SIZE) : Prop := ∃ line ∈ lines, b.getAvail ≤ line.length

/-- The spare buffers that the consumer has to have back. -/
def missing (newBuffer1 newBuffer2 : Option (FixedBuffer SIZE)) : Nat := [newBuffer1,newBuffer2].countP Option.isNone

private theorem empty_iff {b : Option (FixedBuffer SIZE)} : Empty b ↔ ∃ c, b = some c ∧ c.data = [] := by
  exact Option.map_eq_some_iff

private theorem empty_new : Empty (some (FixedBuffer.new : FixedBuffer SIZE)) := rfl

private theorem refill_empty {newBuffer r : Option (FixedBuffer SIZE)} {w w' : List (FixedBuffer SIZE)}
    (h : refill newBuffer w = .ok (r,w')) (hb : newBuffer = none ∨ Empty newBuffer) : Empty r := by
  cases newBuffer with
  | some b =>
    simp only [refill,Except.ok.injEq,Prod.mk.injEq] at h
    obtain ⟨rfl,-⟩ := h
    exact hb.resolve_left (by simp)
  | none =>
    simp only [refill,bind_ok_iff,ensure_ok_iff,Except.ok.injEq,Prod.mk.injEq] at h
    obtain ⟨-,hw,rfl,-⟩ := h
    rw [List.getLast?_eq_some_getLast hw]
    rfl

/-- The consumer goes on, neither into the loop nor out of it. -/
private theorem Owned.move {running : Bool} {c c' : Consumer} {o : Owner} (h : Owned running c o) (hn : c ≠ .notStarted)
    (hf : c ≠ .finished) (hn' : c' ≠ .notStarted) (hs' : c' ≠ .starting) : Owned running c' o := by
  cases o with
  | constructed => exact absurd h hn
  | starting => exact ⟨h.1,hn'⟩
  | started | stopping => exact ⟨h.1,hn',hs'⟩
  | stopped => exact absurd h.2 hf

private theorem own_swapped {next newBuffer2 : Option (FixedBuffer SIZE)} {bs : List (FixedBuffer SIZE)} {b : FixedBuffer SIZE}
    (hrot : next = none → bs ≠ []) (htwo : Empty newBuffer2) :
    Own .swapped none (if next.isNone then none else newBuffer2) (bs ++ [b]) := by
  refine ⟨rfl,?_⟩
  cases hn : next with
  | some _ => exact .inl ⟨htwo,by simp⟩
  | none =>
    refine .inr ⟨rfl,?_⟩
    have hlen := List.length_pos_iff.mpr (hrot hn)
    rw [List.length_append,List.length_singleton]
    omega

/-- The two newest buffers are kept, so both can be refilled. -/
private theorem own_kept {w : List (FixedBuffer SIZE)} {n2 : Option (FixedBuffer SIZE)} {n : Nat} (hmany : 25 < w.length)
    (h : Own .swapped none n2 w) : Own (.writing n) none n2 (w.drop (w.length - 2)) := by
  have hlen : (w.drop (w.length - 2)).length = 2 := by rw [List.length_drop]; omega
  refine ⟨rfl,?_⟩
  rcases h.2 with ⟨htwo,-⟩ | ⟨htwo,-⟩
  · exact .inl ⟨htwo,List.ne_nil_of_length_pos (by omega)⟩
  · exact .inr ⟨htwo,by omega⟩

private theorem Stock.ownAt {c : Consumer} (h : Stock s) (hc : s.consumer = c) :
    Own c s.newBuffer1 s.newBuffer2 s.buffersToWrite := by
  rw [← hc]
  exact h.own

private theorem Stock.ownedAt {o : Owner} (h : Stock s) (ho : s.owner = o) : Owned s.running s.consumer o := by
  rw [← ho]
  exact h.owned

private theorem Stock.ownedFrom {c c' : Consumer} (h : Stock s) (hc : s.consumer = c) (hfrom : c ≠ .notStarted ∧ c ≠ .finished)
    (hto : c' ≠ .notStarted ∧ c' ≠ .starting) : Owned s.running c' s.owner := by
  subst hc
  exact h.owned.move hfrom.1 hfrom.2 hto.1 hto.2

/-- The consumer holds both spare buffers, and nothing else. -/
private theorem Stock.spare (h : Stock s) (hc : s.consumer = .locking ∨ s.consumer = .inWait) :
    Empty s.newBuffer1 ∧ Empty s.newBuffer2 ∧ s.buffersToWrite = [] := by
  rcases hc with hc | hc <;> exact h.ownAt hc

private theorem stock_swap (h : Stock s) (hc : s.consumer = .locking ∨ s.consumer = .inWait) (hs : s.swap = .ok t) : Stock t := by
  obtain ⟨cur,hcur⟩ := h.cur
  obtain ⟨hone,htwo,-⟩ := h.spare hc
  obtain ⟨fresh,hfresh,-⟩ := empty_iff.mp hone
  obtain ⟨spare,hspare,hnil⟩ := empty_iff.mp htwo
  have howned : Owned s.running .swapped s.owner := by
    rcases hc with hc | hc <;> exact h.ownedFrom hc (by simp) (by simp)
  rw [State.swap,hcur] at hs
  cases hs
  refine ⟨⟨fresh,hfresh⟩,fun b hb => ?_,fun hn => ?_,own_swapped h.rotated htwo,howned⟩
  · cases hnext : s.nextBuffer with
    | some b' =>
      rw [hnext] at hb
      cases hb
      exact h.next b hnext
    | none =>
      rw [hnext] at hb
      cases hspare.symm.trans hb
      exact hnil
  · cases hnext : s.nextBuffer with
    | none => simp [hnext,hspare] at hn
    | some b' => simp [hnext] at hn

theorem stock_move (h : Stock s) (hm : Move s a t) : Stock t := by
  cases hm with
  | start ho =>
    have hc : s.consumer = .notStarted := h.ownedAt ho
    have hown := h.ownAt hc
    exact ⟨h.cur,h.next,h.rotated,hown,rfl,by simp⟩
  | countDown hc =>
    have hown := h.ownAt hc
    exact ⟨h.cur,h.next,h.rotated,⟨empty_new,empty_new,hown⟩,h.ownedFrom hc (by simp) (by simp)⟩
  | startReturns ho hc =>
    have howned := h.ownedAt ho
    exact ⟨h.cur,h.next,h.rotated,h.own,howned.1,howned.2,hc⟩
  | fill => exact ⟨⟨_,rfl⟩,h.next,h.rotated,h.own,h.owned⟩
  | rotate =>
    refine ⟨⟨_,rfl⟩,fun b hb => ?_,fun _ => by simp,h.own,h.owned⟩
    cases hb
  | goOn hc _ | leave hc _ | wait hc | keep hc _ | write _ _ hc _ | written _ hc _ =>
    have hown := h.ownAt hc
    exact ⟨h.cur,h.next,h.rotated,hown,h.ownedFrom hc (by simp) (by simp)⟩
  | swap _ b _ hc hb => exact stock_swap h hc (by rw [State.swap,hb])
  | drop hc hmany =>
    have hown := h.ownAt hc
    have hnone := hown.1
    rw [hnone] at hown
    refine ⟨h.cur,h.next,h.rotated,?_,h.ownedFrom hc (by simp) (by simp)⟩
    rw [hnone]
    exact own_kept hmany hown
  | recycle newBuffer1 newBuffer2 w w₁ w₂ hc hone htwo =>
    have hown := h.ownAt hc
    refine ⟨h.cur,h.next,h.rotated,⟨?_,?_,rfl⟩,h.ownedFrom hc (by simp) (by simp)⟩
    · exact refill_empty hone (.inl hown.1)
    · exact refill_empty htwo (hown.2.elim (fun h => .inr h.1) (fun h => .inl h.1))
  | stop ho =>
    have howned := h.ownedAt ho
    exact ⟨h.cur,h.next,h.rotated,h.own,rfl,howned.2⟩
  | join ho hc =>
    have howned := h.ownedAt ho
    exact ⟨h.cur,h.next,h.rotated,h.own,howned.1,hc⟩

theorem stock_initial : Stock (initial : State SIZE) := by
  refine ⟨⟨_,rfl⟩,fun b hb => ?_,by simp [initial],rfl,rfl⟩
  cases hb
  rfl

theorem reachable_stock (h : (machine SIZE).Reachable s) : Stock s := by
  apply Machine.Reachable.invariant (P := Stock) _ _ h
  · intro s hs
    rw [show s = initial from hs]
    exact stock_initial
  · intro s a t ih hs
    exact stock_move ih (move_of_step hs)

theorem Full.mono {lines lines' : List (List UInt8)} {b : FixedBuffer SIZE} (h : Full lines b) (hsub : lines ⊆ lines') :
    Full lines' b := by
  obtain ⟨line,hline,havail⟩ := h
  exact ⟨line,hsub hline,havail⟩

private theorem full_append {line : List UInt8} (h : ∀ b ∈ s.buffers, Full s.lines b) (hs : s.append line = .ok t) :
    ∀ b ∈ t.buffers, Full t.lines b := by
  have hsub : s.lines ⊆ s.lines ++ [line] := List.subset_append_left ..
  unfold State.append at hs
  split at hs
  · cases hs
  · rename_i cur _
    split at hs
    · cases hs
      exact fun b hb => (h b hb).mono hsub
    · rename_i hfull
      cases hs
      intro b hb
      rcases List.mem_append.mp hb with hb | hb
      · exact (h b hb).mono hsub
      · cases List.mem_singleton.mp hb
        exact ⟨line,by simp,Nat.le_of_not_lt hfull⟩

/-- Only full buffers get into m_Buffers; the consumer leaves it empty. -/
theorem full_step (h : ∀ b ∈ s.buffers, Full s.lines b) (hstock : Stock s) (hs : step s a = .ok t) :
    ∀ b ∈ t.buffers, Full t.lines b := by
  have hm := move_of_step hs
  cases hm with
  | fill | rotate => exact full_append h hs
  | swap _ _ _ hc _ =>
    obtain ⟨-,-,hw⟩ := hstock.spare hc
    intro b hb
    rw [hw] at hb
    cases hb
  | _ => exact h

theorem reachable_full (h : (machine SIZE).Reachable s) : ∀ b ∈ s.buffers, Full s.lines b := by
  apply Machine.Reachable.induction (P := fun s => ∀ b ∈ s.buffers, Full s.lines b) _ _ h
  · intro s hs
    rw [show s = initial from hs]
    intro b hb
    cases hb
  · intro s a t hr ih hs
    exact full_step ih (reachable_stock hr) hs

/-- A buffer that is gone for each that is there. -/
private theorem missing_le {w : List (FixedBuffer SIZE)} {newBuffer1 newBuffer2 : Option (FixedBuffer SIZE)}
    (h : Own .recycling newBuffer1 newBuffer2 w) : missing newBuffer1 newBuffer2 ≤ min 2 w.length := by
  obtain ⟨rfl,⟨htwo,hw⟩ | ⟨rfl,hw⟩⟩ := h
  · obtain ⟨b,rfl,-⟩ := empty_iff.mp htwo
    have hlen := List.length_pos_iff.mpr hw
    change 1 ≤ min 2 w.length
    omega
  · change 2 ≤ min 2 w.length
    omega

private theorem refill_ok (newBuffer : Option (FixedBuffer SIZE)) (w : List (FixedBuffer SIZE)) (h : newBuffer = none → w ≠ []) :
    ∃ r, refill newBuffer w = .ok (r,if newBuffer.isNone then w.dropLast else w) := by
  cases newBuffer with
  | some b => exact ⟨some b,rfl⟩
  | none => exact ⟨w.getLast?.map FixedBuffer.reset,by rw [refill,ensure_of _ (h rfl)]; rfl⟩

/-- Two buffers come back whenever both are gone. -/
private theorem recycle_ok (h : Own .recycling s.newBuffer1 s.newBuffer2 s.buffersToWrite) : ∃ t, s.recycle = .ok t := by
  obtain ⟨hone,h⟩ := h
  have hlen : min 2 s.buffersToWrite.length
      = (if 2 < s.buffersToWrite.length then s.buffersToWrite.take 2 else s.buffersToWrite).length := by
    split
    · rw [List.length_take]
    · omega
  unfold State.recycle
  generalize (if 2 < s.buffersToWrite.length then s.buffersToWrite.take 2 else s.buffersToWrite) = w at hlen ⊢
  have hpos : 0 < s.buffersToWrite.length := by
    rcases h with ⟨-,h⟩ | ⟨-,h⟩
    · exact List.length_pos_iff.mpr h
    · omega
  obtain ⟨r₁,hr₁⟩ := refill_ok s.newBuffer1 w fun _ => List.ne_nil_of_length_pos (by omega)
  obtain ⟨r₂,hr₂⟩ := refill_ok s.newBuffer2 w.dropLast fun hnone => by
    rcases h with ⟨htwo,-⟩ | ⟨-,h⟩
    · rw [hnone] at htwo
      cases htwo
    · exact List.ne_nil_of_length_pos (by rw [List.length_dropLast]; omega)
  simp only [hone,Option.isNone_none,if_true] at hr₁
  rw [hone]
  simp only [hr₁,hr₂,ok_bind]
  exact ⟨_,rfl⟩

/-- No assertion fails and no buffer is missing: a step completes, or it is not its turn. -/
theorem step_ok_or_notEnabled (h : Stock s) (a : Label) :
    (∃ t, step s a = .ok t) ∨ step s a = .error .notEnabled := by
  have hown := h.own
  have howned := h.owned
  obtain ⟨cur,hcur⟩ := h.cur
  have hswap : ∃ t, s.swap = .ok t := by rw [State.swap,hcur]; exact ⟨_,rfl⟩
  cases a with
  | start => exact guarded_ok_or_error _ fun _ => .inl ⟨_,rfl⟩
  | countDown =>
    refine guarded_ok_or_error _ fun hc => ?_
    have hrun : s.running = true := by
      rw [hc] at howned
      cases ho : s.owner <;> simp_all [Owned]
    simp only [ensure_of _ hrun,ok_bind]
    exact .inl ⟨_,rfl⟩
  | startReturns => exact guarded_ok_or_error _ fun _ => .inl ⟨_,rfl⟩
  | append line =>
    left
    simp only [step,State.append,hcur]
    split <;> exact ⟨_,rfl⟩
  | testRunning =>
    refine guarded_ok_or_error _ fun hc => .inl ?_
    rw [hc] at hown
    obtain ⟨hone,htwo,hw⟩ := hown
    simp only [ensure_of _ hone,ensure_of _ htwo,ensure_of _ (List.isEmpty_iff.mpr hw),ok_bind]
    split <;> exact ⟨_,rfl⟩
  | lock =>
    refine guarded_ok_or_error _ fun _ => .inl ?_
    split
    · exact hswap
    · exact ⟨_,rfl⟩
  | wake => exact guarded_ok_or_error _ fun _ => .inl hswap
  | drop =>
    refine guarded_ok_or_error _ fun hc => .inl ?_
    rw [hc] at hown
    have hne : s.buffersToWrite.isEmpty = false := by
      rcases hown.2 with ⟨-,hw⟩ | ⟨-,hw⟩
      · simpa using hw
      · simp [List.ne_nil_of_length_pos (l := s.buffersToWrite) (by omega)]
    simp only [ensure_of _ hne,ok_bind]
    split <;> exact ⟨_,rfl⟩
  | write =>
    simp only [step]
    split
    · split <;> exact .inl ⟨_,rfl⟩
    · exact .inr rfl
  | recycle =>
    refine guarded_ok_or_error _ fun hc => .inl ?_
    rw [hc] at hown
    exact recycle_ok hown
  | stop => exact guarded_ok_or_error _ fun _ => .inl ⟨_,rfl⟩
  | join => exact guarded_ok_or_error _ fun _ => .inl ⟨_,rfl⟩

/-- In every interleaving, with lines of any length: m_Buffers has a full buffer whenever
m_pNextBuffer is null, what was written has a buffer for each spare one that is gone, no
assertion fails, and an iteration starts with both spare buffers empty. -/
theorem buffers_suffice (h : (machine SIZE).Reachable s) :
    (s.nextBuffer = none → ∃ b ∈ s.buffers, Full s.lines b) ∧
      (s.consumer = .recycling → missing s.newBuffer1 s.newBuffer2 ≤ min 2 s.buffersToWrite.length) ∧
      (∀ a, (∃ t, step s a = .ok t) ∨ step s a = .error .notEnabled) ∧
      (s.consumer = .testRunning → Empty s.newBuffer1 ∧ Empty s.newBuffer2 ∧ s.buffersToWrite = []) := by
  have hstock := reachable_stock h
  refine ⟨fun hnone => ?_,fun hc => missing_le (hstock.ownAt hc),step_ok_or_notEnabled hstock,fun hc => hstock.ownAt hc⟩
  obtain ⟨b,hb⟩ := List.exists_mem_of_ne_nil _ (hstock.rotated hnone)
  exact ⟨b,hb,reachable_full h b hb⟩

/-- More lines than fit while the consumer waits: m_pNextBuffer is null when it swaps, 25
of the 27 buffers are dropped, and the other two are the spare ones again. -/
theorem buffers_suffice_dropped : ∃ s : State 4, (machine 4).Reachable s ∧ s.consumer = .recycling ∧
    s.batches.map List.length = [27] ∧ missing s.newBuffer1 s.newBuffer2 = 2 ∧ 2 ≤ s.buffersToWrite.length ∧
    ∃ b ∈ s.buffers, Full s.lines b := by
  let full : Label := .append [1,2,3,4]
  let labels : List Label := .start :: .countDown :: .startReturns :: .testRunning :: (List.replicate 26 full ++
    .lock :: .wake :: .drop :: .write :: .write :: .write :: List.replicate 2 full)
  obtain ⟨s,hr,hv⟩ := (machine 4).exists_reachable rfl labels
    (fun s => (s.consumer,s.batches.map List.length,missing s.newBuffer1 s.newBuffer2,s.nextBuffer.isNone))
    (b := (.recycling,[27],2,true)) (by decide +kernel)
  simp only [Prod.mk.injEq,Option.isNone_iff_eq_none] at hv
  obtain ⟨hc,hbatches,hmissing,hnone⟩ := hv
  obtain ⟨hfull,hsuffice,-⟩ := buffers_suffice hr
  have hlen := hsuffice hc
  exact ⟨s,hr,hc,hbatches,hmissing,by omega,hfull hnone⟩

end Recycling

section Conservation
variable {SIZE : Nat} {s t : State SIZE} {a : Label}

def Record.buffers : Record SIZE → List (FixedBuffer SIZE)
  | .buffer b => [b]
  | .dropMsg dropped => dropped

/-- The abstract treatment of the buffers of one iteration: more than 25 of them,
and all but the newest two become one notice. -/
def policy (batch : List (FixedBuffer SIZE)) : List (Record SIZE) :=
  if 25 < batch.length then
    .dropMsg (batch.take (batch.length - 2)) :: (batch.drop (batch.length - 2)).map .buffer
  else batch.map .buffer

/-- The buffers of buffersToWrite that were not handed over yet. -/
def State.unwritten (s : State SIZE) : List (FixedBuffer SIZE) :=
  match s.consumer with
  | .swapped => s.buffersToWrite
  | .writing n => s.buffersToWrite.drop n
  | _ => []

/-- What will be handed over of them. -/
def State.pending (s : State SIZE) : List (Record SIZE) :=
  match s.consumer with
  | .swapped => policy s.buffersToWrite
  | .writing n => (s.buffersToWrite.drop n).map .buffer
  | _ => []

private theorem map_buffer_buffers (bs : List (FixedBuffer SIZE)) : (bs.map Record.buffer).flatMap Record.buffers = bs := by
  rw [List.flatMap_map]
  exact List.flatMap_singleton' bs

theorem policy_buffers (batch : List (FixedBuffer SIZE)) : (policy batch).flatMap Record.buffers = batch := by
  unfold policy
  split
  · rw [List.flatMap_cons,map_buffer_buffers]
    exact List.take_append_drop _ batch
  · exact map_buffer_buffers batch

private theorem pending_buffers (s : State SIZE) : s.pending.flatMap Record.buffers = s.unwritten := by
  unfold State.pending State.unwritten
  split
  · exact policy_buffers _
  · exact map_buffer_buffers _
  · rfl

/-- Every line is in one buffer, and the buffers are in the order of the lines. -/
structure Inv (s : State SIZE) : Prop where
  content : ∃ cur, s.curBuffer = some cur ∧
    Chunked ((s.batches.flatten ++ s.buffers ++ [cur]).map FixedBuffer.data) s.lines
  next : ∀ b, s.nextBuffer = some b → b.data = []
  /-- Then two buffers at least are swapped out. -/
  rotated : s.nextBuffer = none → s.buffers ≠ []
  own : Own s.consumer s.newBuffer1 s.newBuffer2 s.buffersToWrite
  policy : s.output ++ s.pending = s.batches.flatMap policy
  owned : Owned s.running s.consumer s.owner

private theorem chunked_append {bs : List (FixedBuffer SIZE)} {b : FixedBuffer SIZE} {line : List UInt8} {lines : List (List UInt8)}
    (h : Chunked ((bs ++ [b]).map FixedBuffer.data) lines) (hfit : line.length < b.getAvail) :
    Chunked ((bs ++ [b.append line]).map FixedBuffer.data) (lines ++ [line]) := by
  rw [List.map_append,List.map_singleton] at h ⊢
  rw [FixedBuffer.append_data hfit]
  exact h.snoc_piece line

private theorem chunked_fresh {bs : List (FixedBuffer SIZE)} {b : FixedBuffer SIZE} {lines : List (List UInt8)}
    (h : Chunked (bs.map FixedBuffer.data) lines) (hb : b.data = []) : Chunked ((bs ++ [b]).map FixedBuffer.data) lines := by
  rw [List.map_append,List.map_singleton,hb]
  exact h.snoc_nil

/-- The buffer that comes behind a full one: the next one, or one just made. -/
private theorem getD_new_data {next : Option (FixedBuffer SIZE)} (h : ∀ b, next = some b → b.data = []) :
    (next.getD .new).data = [] := by
  cases next with
  | none => rfl
  | some b => exact h b rfl

private theorem avail_of_fresh {b : FixedBuffer SIZE} (h : b.data = []) : b.getAvail = SIZE := by
  rw [FixedBuffer.getAvail,h,List.length_nil,Nat.sub_zero]

theorem Inv.stock (h : Inv s) : Stock s := by
  obtain ⟨cur,hcur,-⟩ := h.content
  exact ⟨⟨cur,hcur⟩,h.next,h.rotated,h.own,h.owned⟩

/-- The batch takes over all that was appended. -/
private theorem content_move (h : Inv s) (hshort : ∀ line ∈ t.lines, line.length < SIZE) (hm : Move s a t) :
    ∃ cur, t.curBuffer = some cur ∧ Chunked ((t.batches.flatten ++ t.buffers ++ [cur]).map FixedBuffer.data) t.lines := by
  obtain ⟨cur,hcur,hcontent⟩ := h.content
  cases hm with
  | fill line b hb hfit =>
    cases hcur.symm.trans hb
    exact ⟨_,rfl,chunked_append hcontent hfit⟩
  | rotate line b hb =>
    cases hcur.symm.trans hb
    have hfresh := getD_new_data h.next
    have hfit : line.length < (s.nextBuffer.getD .new).getAvail := by
      rw [avail_of_fresh hfresh]
      exact hshort line (by simp)
    have hnew := chunked_append (chunked_fresh hcontent hfresh) hfit
    rw [List.append_assoc s.batches.flatten] at hnew
    exact ⟨_,rfl,hnew⟩
  | swap _ b _ hc hb =>
    cases hcur.symm.trans hb
    obtain ⟨hone,-,hw⟩ := h.stock.spare hc
    obtain ⟨fresh,hfresh,hnil⟩ := empty_iff.mp hone
    have hnew := chunked_fresh hcontent hnil
    refine ⟨fresh,hfresh,?_⟩
    simpa only [hw,List.flatten_append,List.flatten_cons,List.flatten_nil,List.append_nil,List.append_assoc] using hnew
  | _ => exact ⟨cur,hcur,hcontent⟩

private theorem Inv.policyAt {bs : List (Record SIZE)} (h : Inv s) (hp : s.pending = bs) :
    s.output ++ bs = s.batches.flatMap AsyncLoggingDoubleBuffering.policy := by
  rw [← hp]
  exact h.policy

private theorem policy_move (h : Inv s) (hm : Move s a t) : t.output ++ t.pending = t.batches.flatMap policy := by
  cases hm with
  | start ho =>
    have hc : s.consumer = .notStarted := h.stock.ownedAt ho
    exact h.policyAt (show s.pending = [] by rw [State.pending,hc])
  | countDown hc | goOn hc _ | leave hc _ | wait hc | recycle _ _ _ _ _ hc _ _ =>
    exact h.policyAt (show s.pending = [] by rw [State.pending,hc])
  | swap _ b _ hc _ =>
    have hp : s.pending = [] := by rcases hc with hc | hc <;> rw [State.pending,hc]
    have hpolicy := h.policyAt hp
    change s.output ++ policy (s.buffers ++ [b]) = (s.batches ++ [s.buffers ++ [b]]).flatMap policy
    rw [List.flatMap_append,← hpolicy,List.append_nil,List.flatMap_singleton]
  | drop hc hmany =>
    have hpolicy := h.policyAt (show s.pending = policy s.buffersToWrite by rw [State.pending,hc])
    rw [← hpolicy,policy,if_pos hmany]
    simp [State.pending]
  | keep hc hfew =>
    have hpolicy := h.policyAt (show s.pending = policy s.buffersToWrite by rw [State.pending,hc])
    rw [← hpolicy,policy,if_neg (by omega)]
    rfl
  | write n b hc hb =>
    have hpolicy := h.policyAt (show s.pending = (s.buffersToWrite.drop n).map Record.buffer by rw [State.pending,hc])
    obtain ⟨hn,rfl⟩ := List.getElem?_eq_some_iff.mp hb
    rw [← hpolicy,List.drop_eq_getElem_cons hn,List.map_cons]
    exact List.append_assoc ..
  | written n hc hend =>
    exact h.policyAt (show s.pending = [] by rw [State.pending,hc]; simp [List.drop_eq_nil_of_le hend])
  | fill | rotate | startReturns | stop | join => exact h.policy

theorem inv_move (h : Inv s) (hshort : ∀ line ∈ t.lines, line.length < SIZE) (hm : Move s a t) : Inv t := by
  have hstock := stock_move h.stock hm
  exact ⟨content_move h hshort hm,hstock.next,hstock.rotated,hstock.own,policy_move h hm,hstock.owned⟩

theorem inv_initial : Inv (initial : State SIZE) := by
  have hstock : Stock (initial : State SIZE) := stock_initial
  exact ⟨⟨.new,rfl,Chunked.nil.snoc_nil⟩,hstock.next,hstock.rotated,hstock.own,rfl,hstock.owned⟩

theorem lines_move (hm : Move s a t) : s.lines <+: t.lines := by
  cases hm with
  | fill line | rotate line => exact List.prefix_append s.lines [line]
  | _ => exact List.prefix_refl _

theorem reachable_inv (h : (machine SIZE).Reachable s) : (∀ line ∈ s.lines, line.length < SIZE) → Inv s := by
  apply Machine.Reachable.invariant (P := fun s => (∀ line ∈ s.lines, line.length < SIZE) → Inv s) _ _ h
  · intro s hs _
    rw [show s = initial from hs]
    exact inv_initial
  · intro s a t ih hs hshort
    have hm := move_of_step hs
    have hbefore : ∀ line ∈ s.lines, line.length < SIZE := fun line hline => hshort line ((lines_move hm).subset hline)
    exact inv_move (ih hbefore) hshort hm

/-- What was swapped out was handed over, or is on its way. -/
theorem Inv.handed (h : Inv s) : s.batches.flatten = s.output.flatMap Record.buffers ++ s.unwritten := by
  have hpolicy := congrArg (List.flatMap Record.buffers) h.policy
  rw [List.flatMap_append,pending_buffers,List.flatMap_assoc] at hpolicy
  rw [hpolicy]
  simp only [policy_buffers]
  exact List.flatMap_id.symm

private theorem written_of_few {out : List (Record SIZE)} {bs : List (List (FixedBuffer SIZE))} (h : out <+: bs.flatMap policy)
    (hfew : ∀ batch ∈ bs, batch.length ≤ 25) :
    out.flatMap Record.written = ((out.flatMap Record.buffers).map FixedBuffer.data).flatten := by
  have hall : ∀ r ∈ out, ∃ b, r = .buffer b := by
    intro r hr
    obtain ⟨batch,hbatch,hrec⟩ := List.mem_flatMap.mp (h.subset hr)
    rw [policy,if_neg (Nat.not_lt.mpr (hfew batch hbatch))] at hrec
    obtain ⟨b,-,rfl⟩ := List.mem_map.mp hrec
    exact ⟨b,rfl⟩
  clear h
  induction out with
  | nil => rfl
  | cons r out ih =>
    obtain ⟨b,rfl⟩ := hall _ List.mem_cons_self
    rw [List.flatMap_cons,ih fun r hr => hall r (List.mem_cons_of_mem _ hr)]
    rfl

/-- In every interleaving, while the lines are shorter than a buffer: what was handed
over, what is not yet written, m_Buffers and m_pCurBuffer hold the lines in lock order,
each in one place, and m_pNextBuffer holds nothing; what is handed over is what the
policy makes of the batches. Without a batch of more than 25 the file has every byte. -/
theorem lines_in_order (h : (machine SIZE).Reachable s) (hshort : ∀ line ∈ s.lines, line.length < SIZE) :
    ∃ cur, s.curBuffer = some cur ∧ (∀ b, s.nextBuffer = some b → b.data = []) ∧
      Chunked ((s.output.flatMap Record.buffers ++ s.unwritten ++ s.buffers ++ [cur]).map FixedBuffer.data) s.lines ∧
      s.batches.flatten = s.output.flatMap Record.buffers ++ s.unwritten ∧
      s.output ++ s.pending = s.batches.flatMap policy ∧
      ((∀ batch ∈ s.batches, batch.length ≤ 25) →
        s.output.flatMap Record.written ++ ((s.unwritten ++ s.buffers ++ [cur]).map FixedBuffer.data).flatten = s.lines.flatten) := by
  have hi := reachable_inv h hshort
  obtain ⟨cur,hcur,hcontent⟩ := hi.content
  rw [hi.handed] at hcontent
  refine ⟨cur,hcur,hi.next,hcontent,hi.handed,hi.policy,fun hfew => ?_⟩
  have hout : s.output <+: s.batches.flatMap policy := by
    rw [← hi.policy]
    exact List.prefix_append _ _
  rw [written_of_few hout hfew,← hcontent.flatten_eq]
  simp only [List.map_append,List.flatten_append,List.append_assoc]

/-- Two lines that do not fit together, the first of them written. -/
theorem lines_in_order_twoLines : ∃ s : State 4, (machine 4).Reachable s ∧ s.lines = [[1,2],[3,4]] ∧
    s.output.map Record.written = [[1,2]] ∧ ∃ cur, s.curBuffer = some cur ∧
      s.output.flatMap Record.written ++ ((s.unwritten ++ s.buffers ++ [cur]).map FixedBuffer.data).flatten = s.lines.flatten := by
  let labels : List Label := [.start,.countDown,.startReturns,.append [1,2],.append [3,4],.testRunning,.lock,.wake,.drop,.write]
  obtain ⟨s,hr,hv⟩ := (machine 4).exists_reachable rfl labels
    (fun s => (s.lines,s.output.map Record.written,s.batches.map List.length)) (b := ([[1,2],[3,4]],[[1,2]],[2])) (by decide +kernel)
  simp only [Prod.mk.injEq] at hv
  obtain ⟨hl,ho,hb⟩ := hv
  obtain ⟨cur,hcur,-,-,-,-,hfew⟩ := lines_in_order hr (by rw [hl]; decide)
  refine ⟨s,hr,hl,ho,cur,hcur,hfew fun batch hbatch => ?_⟩
  have hlen := List.mem_map_of_mem (f := List.length) hbatch
  rw [hb,List.mem_singleton] at hlen
  omega

end Conservation

section Stop
variable {SIZE : Nat} {s t : State SIZE} {a : Label}

def contents (bs : List (FixedBuffer SIZE)) : List UInt8 := (bs.map FixedBuffer.data).flatten

private theorem contents_append (bs cs : List (FixedBuffer SIZE)) : contents (bs ++ cs) = contents bs ++ contents cs := by
  simp only [contents,List.map_append,List.flatten_append]

/-- The consumer is in front of the critical section or waits in it. -/
def AboutToSwap (s : State SIZE) : Prop := s.consumer = .locking ∨ s.consumer = .inWait

instance (s : State SIZE) : Decidable (AboutToSwap s) := inferInstanceAs (Decidable (_ ∨ _))

/-- The flag is cleared and the consumer swaps no more. -/
structure NoMoreSwap (batches : List (List (FixedBuffer SIZE))) (s : State SIZE) : Prop where
  running : s.running = false
  owner : s.owner ≠ .constructed
  consumer : ¬ AboutToSwap s
  batches : s.batches = batches

theorem noMoreSwap_move {batches : List (List (FixedBuffer SIZE))} (h : NoMoreSwap batches s) (hm : Move s a t) :
    NoMoreSwap batches t := by
  cases hm with
  | start ho => exact absurd ho h.owner
  | goOn _ hrun =>
    rw [h.running] at hrun
    cases hrun
  | swap _ _ _ hc _ => exact absurd hc h.consumer
  | wait hc => exact absurd (.inl hc) h.consumer
  | startReturns | join => exact ⟨h.running,by simp,h.consumer,h.batches⟩
  | stop => exact ⟨rfl,by simp,h.consumer,h.batches⟩
  | fill | rotate => exact ⟨h.running,h.owner,h.consumer,h.batches⟩
  | countDown | leave | drop | keep | write | written | recycle => exact ⟨h.running,h.owner,by simp [AboutToSwap],h.batches⟩

theorem noMoreSwap_run {batches : List (List (FixedBuffer SIZE))} {labels : List Label} (h : NoMoreSwap batches s)
    (hrun : (machine SIZE).run s labels = .ok t) : NoMoreSwap batches t := by
  refine (machine SIZE).run_invariant (P := NoMoreSwap batches) ?_ h hrun
  intro v b w hv hs
  exact noMoreSwap_move hv (move_of_step hs)

/-- The given lines are in the batches, or the next swap takes them. -/
def Covered (lines : List (List UInt8)) (s : State SIZE) : Prop :=
  lines <+: s.lines ∧ (AboutToSwap s ∨ lines.flatten <+: contents s.batches.flatten)

theorem covered_move {lines : List (List UInt8)} (h : Covered lines s) (hi : Inv s) (hm : Move s a t) : Covered lines t := by
  refine ⟨h.1.trans (lines_move hm),?_⟩
  cases hm with
  | swap _ b _ _ hb =>
    obtain ⟨cur,hcur,hcontent⟩ := hi.content
    cases hcur.symm.trans hb
    right
    have hall : contents (s.batches ++ [s.buffers ++ [b]]).flatten = s.lines.flatten := by
      rw [← hcontent.flatten_eq,contents]
      simp only [List.flatten_append,List.flatten_singleton,List.append_assoc]
    rw [hall]
    exact h.1.flatten
  | wait => exact .inl (.inr rfl)
  | start ho =>
    have hc := hi.owned
    rw [ho] at hc
    exact h.2.imp_left (fun hs => by rcases hs with hs | hs <;> cases hs.symm.trans (show s.consumer = .notStarted from hc))
  | goOn => exact .inl (.inl rfl)
  | countDown hc | leave hc | drop hc | keep hc | write _ _ hc | written _ hc | recycle _ _ _ _ _ hc =>
    exact .inr (h.2.resolve_left (by simp [AboutToSwap,hc]))
  | fill | rotate | startReturns | stop | join => exact h.2

private theorem handed_of_stopped (hi : Inv s) (ho : s.owner = .stopped) :
    s.output.flatMap Record.buffers = s.batches.flatten := by
  have howned := hi.owned
  rw [ho] at howned
  rw [hi.handed,State.unwritten,howned.2,List.append_nil]

/-- What is in the batches and behind them. -/
private theorem contents_lines (hi : Inv s) :
    contents s.batches.flatten ++ contents (s.buffers ++ s.curBuffer.toList) = s.lines.flatten := by
  obtain ⟨cur,hcur,hcontent⟩ := hi.content
  rw [← contents_append,hcur,← hcontent.flatten_eq,contents,← List.append_assoc]
  rfl

private theorem covered_run (lines : List (List UInt8)) {labels : List Label} (hreach : (machine SIZE).Reachable s)
    (h : Covered lines s) (hrun : (machine SIZE).run s labels = .ok t) :
    (machine SIZE).Reachable t ∧ ((∀ line ∈ t.lines, line.length < SIZE) → Covered lines t) := by
  refine (machine SIZE).run_invariant
    (P := fun v => (machine SIZE).Reachable v ∧ ((∀ line ∈ v.lines, line.length < SIZE) → Covered lines v)) ?_
    ⟨hreach,fun _ => h⟩ hrun
  intro v b w hv hs
  refine ⟨hv.1.step hs,fun hshort => ?_⟩
  have hm := move_of_step hs
  have hbefore : ∀ line ∈ v.lines, line.length < SIZE := fun line hline => hshort line ((lines_move hm).subset hline)
  exact covered_move (hv.2 hbefore) (reachable_inv hv.1 hbefore) hm

private theorem run_lines {labels : List Label} (hrun : (machine SIZE).run s labels = .ok t) : s.lines <+: t.lines := by
  refine (machine SIZE).run_invariant (P := fun v => s.lines <+: v.lines) ?_ List.prefix_rfl hrun
  intro v b w hv hs
  exact hv.trans (lines_move (move_of_step hs))

/-- When Stop returns, the lines appended before it was called are handed over, or
dropped by the policy, exactly if at the call the consumer was about to swap or
there was nothing to swap out. -/
theorem stop_drains_iff {u : State SIZE} {labels : List Label} (h : (machine SIZE).Reachable s) (hstop : step s .stop = .ok u)
    (hrun : (machine SIZE).run u labels = .ok t) (ho : t.owner = .stopped) (hshort : ∀ line ∈ t.lines, line.length < SIZE) :
    s.lines.flatten <+: contents (t.output.flatMap Record.buffers) ↔
      AboutToSwap s ∨ contents (s.buffers ++ s.curBuffer.toList) = [] := by
  have hu : (machine SIZE).Reachable u := h.step (a := .stop) hstop
  simp only [step,bind_ok_iff,ensure_ok_iff,Except.ok.injEq] at hstop
  obtain ⟨-,-,rfl⟩ := hstop
  have hi := reachable_inv h fun line hline => hshort line ((run_lines hrun).subset hline)
  by_cases hswap : AboutToSwap s
  · obtain ⟨hreach,hcovered⟩ := covered_run s.lines hu ⟨List.prefix_rfl,.inl hswap⟩ hrun
    have hit := reachable_inv hreach hshort
    have hleft : ¬ AboutToSwap t := by
      have howned := hit.owned
      rw [ho] at howned
      simp [AboutToSwap,howned.2]
    rw [handed_of_stopped hit ho]
    exact iff_of_true ((hcovered hshort).2.resolve_left hleft) (.inl hswap)
  · have hstart : NoMoreSwap s.batches { s with running := false, owner := .stopping } := ⟨rfl,by simp,hswap,rfl⟩
    have hend := noMoreSwap_run hstart hrun
    obtain ⟨hreach,-⟩ := covered_run [] hu ⟨List.nil_prefix,.inr List.nil_prefix⟩ hrun
    rw [handed_of_stopped (reachable_inv hreach hshort) ho,hend.batches,← contents_lines hi,or_iff_right hswap]
    constructor
    · intro hpre
      have hlen := hpre.length_le
      rw [List.length_append] at hlen
      exact List.length_eq_zero_iff.mp (by omega)
    · intro hnil
      rw [hnil,List.append_nil]

/-- A line appended before Stop, with the consumer in front of the test of the flag:
Stop returns, and the line was neither handed over nor dropped. -/
theorem stop_loses_line : ∃ s u t : State largeBuffer, (machine largeBuffer).Reachable s ∧ step s .stop = .ok u ∧
    (∃ labels, (machine largeBuffer).run u labels = .ok t) ∧ t.owner = .stopped ∧ s.lines = [[120]] ∧
    t.output = [] ∧ t.batches = [] ∧ ¬ s.lines.flatten <+: contents (t.output.flatMap Record.buffers) := by
  let labels : List Label := [.start,.countDown,.startReturns,.append [120]]
  obtain ⟨s,hs,hv⟩ := (machine largeBuffer).exists_run_eq (s := initial) labels
    (fun s => (s.lines,((machine largeBuffer).run s [.stop,.testRunning,.join]).toOption.map
      fun t => (t.owner,t.output.length,t.batches.length)))
    (b := ([[120]],some (.stopped,0,0))) (by decide +kernel)
  simp only [Prod.mk.injEq] at hv
  obtain ⟨hl,ht⟩ := hv
  obtain ⟨t,hrun,hv⟩ := (machine largeBuffer).exists_run_eq _ _ ht
  simp only [Prod.mk.injEq,List.length_eq_zero_iff] at hv
  obtain ⟨ho,hout,hbatches⟩ := hv
  obtain ⟨u,hu,hrest⟩ := (bind_ok_iff _ _ _).mp hrun
  refine ⟨s,u,t,⟨initial,labels,rfl,hs⟩,hu,⟨_,hrest⟩,ho,hl,hout,hbatches,?_⟩
  rw [hl,hout]
  decide

/-- Two lines while the consumer is about to swap: both are in the file. -/
theorem stop_drains_iff_twoLines : ∃ s t : State 4, (machine 4).Reachable s ∧ t.owner = .stopped ∧ s.lines = [[1,2],[3,4]] ∧
    s.lines.flatten <+: contents (t.output.flatMap Record.buffers) := by
  let labels : List Label := [.start,.countDown,.startReturns,.testRunning,.append [1,2],.append [3,4],.lock]
  let rest : List Label := [.wake,.drop,.write,.append [5],.write,.write,.recycle,.testRunning,.join]
  obtain ⟨s,hs,hv⟩ := (machine 4).exists_run_eq (s := initial) labels
    (fun s => (s.lines,decide (AboutToSwap s),((machine 4).run s (.stop :: rest)).toOption.map fun t => (t.owner,t.lines)))
    (b := ([[1,2],[3,4]],true,some (.stopped,[[1,2],[3,4],[5]]))) (by decide +kernel)
  simp only [Prod.mk.injEq,decide_eq_true_eq] at hv
  obtain ⟨hl,hswap,ht⟩ := hv
  obtain ⟨t,hrun,hv⟩ := (machine 4).exists_run_eq _ _ ht
  simp only [Prod.mk.injEq] at hv
  obtain ⟨u,hu,hrest⟩ := (bind_ok_iff _ _ _).mp hrun
  have hreach : (machine 4).Reachable s := ⟨initial,labels,rfl,hs⟩
  refine ⟨s,t,hreach,hv.1,hl,(stop_drains_iff hreach hu hrest hv.1 ?_).mpr (.inl hswap)⟩
  rw [hv.2]
  decide

end Stop

section Pace
variable {SIZE : Nat} {s t : State SIZE} {labels : List Label}
open Thread.Mutex (Timespec deadline)

/-- The consumer waits in its critical section exactly if it finds no full buffer. -/
def Paced (s : State SIZE) (a : Label) : Prop :=
  a = .lock → ∀ t, step s a = .ok t → (t.consumer = .inWait ↔ s.buffers = [])

/-- The guard is the other way round. -/
theorem lock_waits_iff (hs : step s .lock = .ok t) : t.consumer = .inWait ↔ s.buffers ≠ [] := by
  obtain ⟨_,-,hs⟩ := (bind_ok_iff _ _ _).mp hs
  split at hs
  · rename_i hempty
    refine iff_of_false ?_ fun hne => hne (List.isEmpty_iff.mp hempty)
    rw [State.swap] at hs
    split at hs
    · cases hs
    · cases hs
      exact fun h => by cases h
  · rename_i hfull
    cases hs
    exact iff_of_true rfl fun hnil => hfull (List.isEmpty_iff.mpr hnil)

theorem paced_iff {a : Label} (hs : step s a = .ok t) : Paced s a ↔ a ≠ .lock := by
  constructor
  · rintro h rfl
    have hwaits := h rfl t hs
    rw [lock_waits_iff hs] at hwaits
    exact iff_not_self hwaits.symm
  · exact fun hne heq => absurd heq hne

theorem along_paced_iff (hrun : (machine SIZE).run s labels = .ok t) : (machine SIZE).Along Paced s labels ↔ .lock ∉ labels := by
  induction labels generalizing s with
  | nil => exact iff_of_true trivial List.not_mem_nil
  | cons a labels ih =>
    obtain ⟨u,hu,hrun⟩ := (bind_ok_iff _ _ _).mp hrun
    simp only [Machine.Along,hu]
    rw [paced_iff hu,ih hrun,List.mem_cons,not_or]
    exact and_congr_left fun _ => ne_comm

/-- The deadline is a number of seconds after the epoch. -/
theorem deadline_eq_iff (now : Timespec) (nSeconds : Int) :
    deadline now nSeconds = { now with tv_sec := now.tv_sec + nSeconds } ↔ now.tv_sec = 0 := by
  rw [deadline,Timespec.mk.injEq]
  omega

/-- In every interleaving the consumer is paced exactly as long as it has not come to its
critical section, and for every clock the deadline is the interval away exactly in the first second of the epoch. -/
theorem consumer_paced_iff (hrun : (machine SIZE).run initial labels = .ok s) :
    ((machine SIZE).Along Paced initial labels ↔ .lock ∉ labels) ∧
      ∀ now nFlushInterval, 0 < nFlushInterval →
        (deadline now nFlushInterval = { now with tv_sec := now.tv_sec + nFlushInterval } ↔ now.tv_sec = 0) :=
  ⟨along_paced_iff hrun,fun now nFlushInterval _ => deadline_eq_iff now nFlushInterval⟩

/-- Before its first critical section, in the first second of the epoch. -/
theorem consumer_paced_iff_started : (machine largeBuffer).Along Paced initial [.start,.countDown,.append [120],.testRunning] ∧
    deadline ⟨0,7⟩ 3 = ⟨3,7⟩ := by
  have hok : ((machine largeBuffer).run initial [.start,.countDown,.append [120],.testRunning]).isOk = true := by decide +kernel
  obtain ⟨s,hrun⟩ := (machine largeBuffer).exists_run hok
  obtain ⟨hpaced,hdeadline⟩ := consumer_paced_iff hrun
  exact ⟨hpaced.mpr (by decide),(hdeadline ⟨0,7⟩ 3 (by decide)).mpr rfl⟩

/-- With no full buffer the consumer swaps at once; where it waits for three seconds, the
time it waits for is of 1970. -/
theorem idle_consumer_spins : ∃ s t : State largeBuffer,
    (machine largeBuffer).run initial [.start,.countDown,.testRunning] = .ok s ∧ step s .lock = .ok t ∧ s.buffers = [] ∧
      t.consumer = .swapped ∧ ¬ Paced s .lock ∧ deadline ⟨1700000000,0⟩ 3 = ⟨3,0⟩ := by
  obtain ⟨s,hrun,hv⟩ := @Machine.exists_run_eq _ _ _ _ (machine largeBuffer) initial [.start,.countDown,.testRunning]
    (fun s => (s.buffers.length,(step s .lock).toOption.map State.consumer)) (0,some .swapped) (by decide +kernel)
  obtain ⟨hlen,hstep⟩ := Prod.mk.inj hv
  have hempty := List.length_eq_zero_iff.mp hlen
  cases hs : step s .lock with
  | error e => rw [hs] at hstep; cases hstep
  | ok t =>
    rw [hs] at hstep
    exact ⟨s,t,hrun,hs,hempty,Option.some.inj hstep,fun h => (paced_iff hs).mp h rfl,rfl⟩

end Pace

end AsyncLoggingDoubleBuffering
end LinuxServer.Logging
