import LinuxServer.Reactor.TcpConnection

/-! The outbound stream: what the kernel took and what is buffered is the
concatenation of the accepted payloads, and no thread's messages change order. -/
namespace LinuxServer.Reactor.TcpConnection
open LinuxServer.Lib
variable {cb : CallBacks}

/-! What each step of the loop thread can do. -/

/-- The notification queued when everything has been written. -/
def completions (cb : CallBacks) (done : Prop) [Decidable done] : List Functor :=
  if done ∧ cb.writeComplete = true then [.writeComplete] else []

/-- The count of attempts that came after SHUT_WR, with one more attempt. -/
def State.attempted (s : State) : Nat := if s.shutDown then s.lateWrites + 1 else s.lateWrites

/-- No output is pending, so sendInLoop writes directly. -/
def State.Direct (s : State) : Prop := s.writing = false ∧ s.outputBuffer.readable = []

instance (s : State) : Decidable s.Direct := inferInstanceAs (Decidable (_ ∧ _))

/-- The count that sendInLoop goes on with: an error leaves it 0. -/
def nWriteOf : Except Int Nat → Nat
  | .ok nWrite => nWrite
  | .error _ => 0

def State.nWrite (s : State) (answer : Except Int Nat) : Nat := if s.Direct then nWriteOf answer else 0

theorem State.Direct.of_nWrite {s : State} {answer : Except Int Nat} (h : 0 < s.nWrite answer) : s.Direct := by
  by_contra hd
  rw [State.nWrite,if_neg hd] at h
  exact lt_irrefl 0 h

theorem queueWriteComplete_eq (s : State) (done : Prop) [Decidable done] (h : done) :
    s.queueWriteComplete cb = { s with pendingFunctors := s.pendingFunctors ++ completions cb done } := by
  cases hw : cb.writeComplete <;>
    simp [State.queueWriteComplete,State.queueInLoop,completions,hw,h]

theorem write_cases {s t : State} {data : List UInt8} {answer : Except Int Nat}
    (hs : s.write data answer = .ok t) :
    ∃ n ≤ data.length, (answer = .ok n ∨ n = 0 ∧ ∃ errno, answer = .error errno) ∧
      t = { s with lateWrites := s.attempted, wire := s.wire ++ data.take n } := by
  cases answer with
  | ok n =>
    simp only [State.write,bind_ok_iff,ensure_ok_iff,Except.ok.injEq] at hs
    obtain ⟨-,hn,rfl⟩ := hs
    exact ⟨n,hn,.inl rfl,rfl⟩
  | error errno =>
    cases hs
    exact ⟨0,Nat.zero_le _,.inr ⟨rfl,errno,rfl⟩,by simp [State.attempted]⟩

theorem direct_iff {s : State} (h : s.outputBuffer.WF) :
    (s.writing = false ∧ 0 = s.outputBuffer.readableBytes) ↔ s.Direct := by
  rw [State.Direct,← h.readable_length,← List.length_eq_zero_iff,eq_comm (a := 0)]

theorem writeDirectly_cases {s : State} {data : List UInt8} {answer : Except Int Nat} {r : State × Nat × Nat}
    (h : s.outputBuffer.WF) (hs : s.writeDirectly cb data answer = .ok r) :
    ∃ n ≤ data.length, n = s.nWrite answer ∧
      r = ({ s with
        lateWrites := if s.Direct then s.attempted else s.lateWrites
        wire := s.wire ++ data.take n
        pendingFunctors := s.pendingFunctors ++ completions cb (s.Direct ∧ answer = .ok data.length) },
        n,data.length - n) := by
  unfold State.writeDirectly at hs
  by_cases hd : s.Direct
  · rw [if_pos ((direct_iff h).mpr hd)] at hs
    obtain ⟨s',hw,hs⟩ := (bind_ok_iff _ _ _).mp hs
    obtain ⟨n,hn,hanswer,rfl⟩ := write_cases hw
    rcases hanswer with rfl | ⟨rfl,errno,rfl⟩
    · simp only [sizeSub_of_le hn,Except.ok.injEq] at hs
      refine ⟨n,hn,(if_pos hd).symm,?_⟩
      rw [← hs,if_pos hd]
      by_cases hall : 0 = data.length - n
      · have hlen : s.Direct ∧ (.ok n : Except Int Nat) = .ok data.length := ⟨hd,by congr 1; omega⟩
        rw [if_pos hall,queueWriteComplete_eq _ _ hlen]
      · have hlen : ¬ (.ok n : Except Int Nat) = .ok data.length := fun he => by
          cases he
          omega
        rw [if_neg hall]
        simp [completions,hlen]
    · simp only [Except.ok.injEq] at hs
      refine ⟨0,hn,(if_pos hd).symm,?_⟩
      rw [← hs,if_pos hd]
      simp [completions]
  · rw [if_neg (mt (direct_iff h).mp hd)] at hs
    cases hs
    refine ⟨0,Nat.zero_le _,(if_neg hd).symm,?_⟩
    rw [if_neg hd]
    simp [completions,hd]

/-- A message is given up, or partly written and the rest appended to the output. -/
theorem sendInLoop_cases {s t : State} {c : Call} {answer : Except Int Nat} (h : s.outputBuffer.WF)
    (hs : s.sendInLoop cb c answer = .ok t) :
    (s.connectState = .disconnected ∧ t = { s with givenUp := s.givenUp ++ [c] }) ∨
    (s.connectState ≠ .disconnected ∧ ∃ n b, n ≤ c.payload.length ∧ n = s.nWrite answer ∧
      b.WF ∧ b.readable = s.outputBuffer.readable ++ c.payload.drop n ∧
      t = { s with
        lateWrites := if s.Direct then s.attempted else s.lateWrites
        wire := s.wire ++ c.payload.take n
        pendingFunctors := s.pendingFunctors ++ completions cb (s.Direct ∧ answer = .ok c.payload.length)
        accepted := s.accepted ++ [c]
        outputBuffer := b
        writing := if n < c.payload.length then true else s.writing }) := by
  unfold State.sendInLoop at hs
  by_cases hd : s.connectState = .disconnected
  · rw [if_pos hd] at hs
    cases hs
    exact .inl ⟨hd,rfl⟩
  · rw [if_neg hd] at hs
    obtain ⟨r,hw,hs⟩ := (bind_ok_iff _ _ _).mp hs
    obtain ⟨n,hn,hcount,rfl⟩ := writeDirectly_cases h hw
    simp only [bind_ok_iff,ensure_ok_iff] at hs
    obtain ⟨-,-,hs⟩ := hs
    refine .inr ⟨hd,n,?_⟩
    by_cases hrest : n < c.payload.length
    · rw [if_pos (by omega)] at hs
      obtain ⟨b,hb,hs⟩ := (bind_ok_iff _ _ _).mp hs
      have htail : (c.payload.drop n).take (c.payload.length - n) = c.payload.drop n :=
        List.take_of_length_le (by rw [List.length_drop])
      rw [htail] at hb
      obtain ⟨b',hb',hwf,hread,-⟩ := Buffer.append_ok h (c.payload.drop n)
      rw [hb'] at hb
      cases hb
      cases hs
      exact ⟨b,hn,hcount,hwf,hread,by rw [if_pos hrest]⟩
    · rw [if_neg (by omega)] at hs
      cases hs
      have hdone : c.payload.drop n = [] := List.drop_eq_nil_of_le (by omega)
      exact ⟨s.outputBuffer,hn,hcount,h,by rw [hdone,List.append_nil],by rw [if_neg hrest]⟩

/-- A writable event drains some of the output; the last of it may bring the
half-close that was deferred. -/
theorem handleWrite_cases {s t : State} {answer : Except Int Nat} (h : s.outputBuffer.WF)
    (hs : s.handleWrite cb answer = .ok t) :
    (s.writing = false ∧ t = s) ∨
    (s.writing = true ∧ ∃ n b, answer = .ok n ∧ 0 < n ∧ n ≤ s.outputBuffer.readable.length ∧ b.WF ∧
      b.readable = s.outputBuffer.readable.drop n ∧
      t = { s with
        lateWrites := s.attempted
        wire := s.wire ++ s.outputBuffer.readable.take n
        outputBuffer := b
        writing := if n = s.outputBuffer.readable.length then false else true
        pendingFunctors := s.pendingFunctors ++ completions cb (n = s.outputBuffer.readable.length)
        shutDown := if n = s.outputBuffer.readable.length ∧ s.connectState = .disconnecting then true
          else s.shutDown }) := by
  unfold State.handleWrite at hs
  cases hwriting : s.writing with
  | false =>
    rw [hwriting,if_neg Bool.false_ne_true] at hs
    cases hs
    exact .inl ⟨rfl,rfl⟩
  | true =>
    have hpeek := Buffer.peek_ok h (le_refl _)
    rw [← h.readable_length,List.take_length] at hpeek
    rw [hwriting,if_pos rfl,← h.readable_length,hpeek,ok_bind] at hs
    obtain ⟨s₁,hw,hs⟩ := (bind_ok_iff _ _ _).mp hs
    obtain ⟨n,hn,hanswer,rfl⟩ := write_cases hw
    rcases hanswer with rfl | ⟨-,errno,rfl⟩
    · simp only at hs
      by_cases hpos : 0 < n
      · obtain ⟨b,hb,hwf,hread⟩ := Buffer.retrieve_ok h (n := n) (by rwa [← h.readable_length])
        rw [if_pos hpos,hb,ok_bind,← hwf.readable_length,hread,List.length_drop] at hs
        refine .inr ⟨rfl,n,b,rfl,hpos,hn,hwf,hread,?_⟩
        by_cases hall : n = s.outputBuffer.readable.length
        · rw [if_pos (by omega)] at hs
          rw [queueWriteComplete_eq _ (n = s.outputBuffer.readable.length) hall] at hs
          cases hs
          by_cases hstate : s.connectState = .disconnecting
          · simp [State.shutDownInLoop,hall,hstate]
          · simp [hall,hstate]
        · rw [if_neg (by omega)] at hs
          cases hs
          simp [hall,completions,hwriting]
      · rw [if_neg hpos] at hs
        cases hs
    · cases hs

/-! The invariant of the stream. -/

/-- The sends in a functor list. -/
def sends (fs : List Functor) : List Call := fs.filterMap fun
  | .sendInLoop c => some c
  | _ => none

@[simp] theorem sends_nil : sends [] = [] := rfl
@[simp] theorem sends_send (c : Call) : sends [.sendInLoop c] = [c] := rfl
@[simp] theorem sends_append (fs gs : List Functor) : sends (fs ++ gs) = sends fs ++ sends gs :=
  List.filterMap_append
@[simp] theorem sends_completions (done : Prop) [Decidable done] : sends (completions cb done) = [] := by
  unfold completions
  split <;> rfl

def Pc.inFlight : Pc → List Call
  | .sending c => [c]
  | _ => []

def ofThread (t : Thread) (cs : List Call) : List Call := cs.filter fun c => c.thread = t

@[simp] theorem ofThread_append (t : Thread) (cs ds : List Call) :
    ofThread t (cs ++ ds) = ofThread t cs ++ ofThread t ds := List.filter_append ..
@[simp] theorem ofThread_nil (t : Thread) : ofThread t [] = [] := rfl
theorem ofThread_singleton (t : Thread) (c : Call) : ofThread t [c] = if c.thread = t then [c] else [] := by
  simp [ofThread,List.filter_cons]

/-- A thread's calls that were accepted, are queued or are on their way to the queue, in that order. -/
def State.pipeline (s : State) (t : Thread) : List Call :=
  ofThread t s.accepted ++ ofThread t (sends s.functors) ++ ofThread t (sends s.pendingFunctors) ++
    (s.pc t).inFlight

/-- Only other threads queue their sends; the loop thread runs its own at once. -/
structure StreamInv (threadId : Thread) (s : State) : Prop where
  buffer : s.outputBuffer.WF
  stream : s.wire ++ s.outputBuffer.readable = s.accepted.flatMap Call.payload
  inFlight : ∀ t, ∀ c ∈ (s.pc t).inFlight, c.thread = t ∧ t ≠ threadId
  queued : ∀ c ∈ sends s.functors ++ sends s.pendingFunctors, c.thread ≠ threadId
  order : ∀ t, (s.pipeline t).Sublist (ofThread t s.calls)
  numbered : s.calls.map Call.number = List.range s.calls.length

variable {threadId : Thread}

theorem streamInv_initial : StreamInv threadId initial :=
  ⟨Buffer.new_wf,rfl,fun _ _ hc => (by cases hc),fun _ hc => (by cases hc),fun _ => List.nil_sublist _,rfl⟩

/-- Running a send that comes next in its thread keeps the stream in order. -/
theorem streamInv_sendInLoop {s t : State} {c : Call} {answer : Except Int Nat}
    (hb : s.outputBuffer.WF) (hw : s.wire ++ s.outputBuffer.readable = s.accepted.flatMap Call.payload)
    (hf : ∀ u, ∀ c ∈ (s.pc u).inFlight, c.thread = u ∧ u ≠ threadId)
    (hq : ∀ c ∈ sends s.functors ++ sends s.pendingFunctors, c.thread ≠ threadId)
    (ho : ∀ u, (ofThread u s.accepted ++ (ofThread u [c] ++ (ofThread u (sends s.functors) ++
      (ofThread u (sends s.pendingFunctors) ++ (s.pc u).inFlight)))).Sublist (ofThread u s.calls))
    (hn : s.calls.map Call.number = List.range s.calls.length)
    (hs : s.sendInLoop cb c answer = .ok t) : StreamInv threadId t := by
  rcases sendInLoop_cases hb hs with ⟨-,rfl⟩ | ⟨-,n,b,-,hcount,hwf,hread,rfl⟩
  · refine ⟨hb,hw,hf,hq,fun u => List.Sublist.trans ?_ (ho u),hn⟩
    -- a message given up only leaves its thread's sequence
    simp only [State.pipeline,List.append_assoc,List.append_sublist_append_left]
    exact List.sublist_append_right ..
  · refine ⟨hwf,?_,hf,by simpa only [sends_append,sends_completions,List.append_nil] using hq,fun u => ?_,hn⟩
    · rw [List.flatMap_append,← hw,hread]
      simp only [List.flatMap_cons,List.flatMap_nil,List.append_nil]
      rcases Nat.eq_zero_or_pos n with rfl | hpos
      · simp
      · -- a direct write happens only with an empty output buffer
        rw [hcount] at hpos
        rw [(State.Direct.of_nWrite hpos).2]
        simp [List.append_assoc]
    · simpa only [State.pipeline,ofThread_append,sends_append,sends_completions,ofThread_nil,List.append_nil,
        List.append_assoc] using ho u

theorem streamInv_handleWrite {s t : State} {answer : Except Int Nat} (h : StreamInv threadId s)
    (hs : s.handleWrite cb answer = .ok t) : StreamInv threadId t := by
  rcases handleWrite_cases h.buffer hs with ⟨-,rfl⟩ | ⟨-,n,b,-,-,-,hwf,hread,rfl⟩
  · exact h
  · refine ⟨hwf,?_,h.inFlight,by simpa only [sends_append,sends_completions,List.append_nil] using h.queued,
      fun u => ?_,h.numbered⟩
    · rw [hread,List.append_assoc,List.take_append_drop]
      exact h.stream
    · simpa only [State.pipeline,sends_append,sends_completions,List.append_nil] using h.order u

/-- Steps that touch none of the stream's parts. -/
theorem StreamInv.frame {s t : State} (h : StreamInv threadId s) (hb : t.outputBuffer = s.outputBuffer)
    (hw : t.wire = s.wire) (ha : t.accepted = s.accepted) (hc : t.calls = s.calls)
    (hp : ∀ u, (t.pc u).inFlight = (s.pc u).inFlight)
    (hq : sends t.functors ++ sends t.pendingFunctors = sends s.functors ++ sends s.pendingFunctors) :
    StreamInv threadId t := by
  refine ⟨by rw [hb]; exact h.buffer,by rw [hw,hb,ha]; exact h.stream,fun u => ?_,by rw [hq]; exact h.queued,
    fun u => ?_,by rw [hc]; exact h.numbered⟩
  · rw [hp]
    exact h.inFlight u
  · have ho := h.order u
    rw [State.pipeline,List.append_assoc (ofThread u _),← ofThread_append] at ho ⊢
    rwa [ha,hc,hp,hq]

private theorem inFlight_update (s : State) (t u : Thread) (pc : Pc) :
    (Function.update s.pc t pc u).inFlight = if u = t then pc.inFlight else (s.pc u).inFlight := by
  rw [Function.update_apply]
  split <;> rfl

private theorem numbered_append {cs : List Call} (h : cs.map Call.number = List.range cs.length) (t : Thread)
    (bytes : List UInt8) :
    (cs ++ [(⟨t,cs.length,bytes⟩ : Call)]).map Call.number = List.range (cs ++ [(⟨t,cs.length,bytes⟩ : Call)]).length := by
  rw [List.map_append,h,List.length_append,List.length_singleton,List.range_succ]
  rfl

private theorem streamInv_send {s t : State} {u : Thread} {m : Message} {answer : Except Int Nat}
    (h : StreamInv threadId s) (hs : step threadId cb s (.send u m answer) = .ok t) : StreamInv threadId t := by
  obtain ⟨hidle,⟨rfl,-⟩ | ⟨bytes,-,-,⟨hu,hs⟩ | ⟨hu,rfl⟩⟩⟩ := send_cases hs
  · exact h
  · -- the loop thread has nothing queued, so its call is next
    refine streamInv_sendInLoop (s := { s with calls := s.calls ++ [⟨u,s.calls.length,bytes⟩] })
      h.buffer h.stream h.inFlight h.queued (fun v => ?_) (numbered_append h.numbered u bytes) hs
    change List.Sublist _ (ofThread v (s.calls ++ [_]))
    rw [ofThread_append]
    by_cases hv : v = threadId
    · have hf : ofThread v (sends s.functors) = [] := List.filter_eq_nil_iff.mpr fun c hc => by
        simpa [hv] using h.queued c (List.mem_append_left _ hc)
      have hp : ofThread v (sends s.pendingFunctors) = [] := List.filter_eq_nil_iff.mpr fun c hc => by
        simpa [hv] using h.queued c (List.mem_append_right _ hc)
      have hpc : (s.pc v).inFlight = [] := by rw [hv,← hu,hidle]; rfl
      have ho := h.order v
      rw [State.pipeline,hf,hp,hpc] at ho
      change List.Sublist (ofThread v s.accepted ++ (_ ++ (ofThread v (sends s.functors) ++
        (ofThread v (sends s.pendingFunctors) ++ (s.pc v).inFlight)))) _
      rw [hf,hp,hpc]
      simp only [List.append_nil] at ho ⊢
      exact ho.append_right _
    · have hne : u ≠ v := fun he => hv (he.symm.trans hu)
      rw [ofThread_singleton,if_neg hne,List.append_nil,List.nil_append]
      simpa only [State.pipeline,List.append_assoc] using h.order v
  · refine ⟨h.buffer,h.stream,fun v c hc => ?_,h.queued,fun v => ?_,numbered_append h.numbered u bytes⟩
    · simp only [inFlight_update] at hc
      split at hc
      · rename_i hv
        rw [List.mem_singleton.mp hc,hv]
        exact ⟨rfl,hu⟩
      · exact h.inFlight v c hc
    · have ho := h.order v
      simp only [State.pipeline,inFlight_update,ofThread_append] at ho ⊢
      by_cases hv : v = u
      · rw [hv,hidle] at ho
        rw [if_pos hv,hv,ofThread_singleton,if_pos rfl]
        simp only [Pc.inFlight,List.append_nil] at ho ⊢
        exact ho.append_right _
      · rw [if_neg hv,ofThread_singleton,if_neg (Ne.symm hv),List.append_nil]
        exact ho

private theorem streamInv_proceed {s t : State} {u : Thread} (h : StreamInv threadId s)
    (hs : step threadId cb s (.proceed u) = .ok t) : StreamInv threadId t := by
  simp only [step] at hs
  split at hs
  · cases hs
  · rename_i c hpc
    cases hs
    have hc := h.inFlight u c (by rw [hpc]; exact List.mem_singleton_self c)
    refine ⟨h.buffer,h.stream,fun v d hd => ?_,fun d hd => ?_,fun v => ?_,h.numbered⟩
    · simp only [State.queueInLoop,inFlight_update] at hd
      split at hd
      · cases hd
      · exact h.inFlight v d hd
    · simp only [State.queueInLoop,sends_append] at hd
      rw [← List.append_assoc] at hd
      rcases List.mem_append.mp hd with hd | hd
      · exact h.queued d hd
      · rw [List.mem_singleton.mp hd,hc.1]
        exact hc.2
    · have ho := h.order v
      simp only [State.pipeline,State.queueInLoop,inFlight_update,sends_append,ofThread_append] at ho ⊢
      change List.Sublist (_ ++ (_ ++ ofThread v [c]) ++ _) _
      by_cases hv : v = u
      · rw [hv,hpc] at ho
        rw [if_pos hv,ofThread_singleton,hc.1,if_pos hv.symm,hv]
        simpa only [Pc.inFlight,List.append_nil,List.append_assoc] using ho
      · rw [if_neg hv,ofThread_singleton,hc.1,if_neg (Ne.symm hv),List.append_nil]
        exact ho
  · rename_i hpc
    cases hs
    refine h.frame rfl rfl rfl rfl (fun v => ?_) rfl
    simp only [inFlight_update]
    split
    · rename_i hv
      rw [hv,hpc]
      rfl
    · rfl
  · rename_i hpc
    cases hs
    refine h.frame rfl rfl rfl rfl (fun v => ?_) (by simp [State.queueInLoop,sends])
    simp only [State.queueInLoop,inFlight_update]
    split
    · rename_i hv
      rw [hv,hpc]
      rfl
    · rfl

/-- The steps around the stream: reading, closing, and the connection's states. -/
private theorem streamInv_events {s t : State} {a : Label} (h : StreamInv threadId s)
    (ha : (∃ u, a = .shutDown u) ∨ a = .connectedEstablished ∨ (∃ answer, a = .handleRead answer) ∨
      a = .handleClose ∨ a = .queueConnectedDestroyed ∨ a = .swapFunctors)
    (hs : step threadId cb s a = .ok t) : StreamInv threadId t := by
  rcases ha with ⟨u,rfl⟩ | rfl | ⟨answer,rfl⟩ | rfl | rfl | rfl
  · simp only [step,bind_ok_iff,ensure_ok_iff] at hs
    obtain ⟨-,hidle,hs⟩ := hs
    split at hs
    · split at hs
      · cases hs
        refine h.frame ?_ ?_ ?_ ?_ ?_ ?_ <;> (unfold State.shutDownInLoop; split <;> simp)
      · cases hs
        refine h.frame rfl rfl rfl rfl (fun v => ?_) rfl
        simp only [inFlight_update]
        split
        · rename_i hv
          rw [hv,hidle]
          rfl
        · rfl
    · cases hs
      exact h
  · simp only [step,State.connectedEstablished,bind_ok_iff,Except.ok.injEq] at hs
    obtain ⟨-,-,rfl⟩ := hs
    exact h.frame rfl rfl rfl rfl (fun _ => rfl) rfl
  · simp only [step,State.handleRead,bind_ok_iff] at hs
    obtain ⟨-,-,⟨b,n,e⟩,-,hs⟩ := hs
    simp only at hs
    split at hs
    · split at hs <;> cases hs <;> exact h.frame rfl rfl rfl rfl (fun _ => rfl) rfl
    · split at hs
      · simp only [State.handleClose,bind_ok_iff,Except.ok.injEq] at hs
        obtain ⟨-,-,rfl⟩ := hs
        exact h.frame rfl rfl rfl rfl (fun _ => rfl) rfl
      · cases hs
        exact h.frame rfl rfl rfl rfl (fun _ => rfl) rfl
  · simp only [step,State.handleClose,bind_ok_iff,Except.ok.injEq] at hs
    obtain ⟨-,-,-,-,rfl⟩ := hs
    exact h.frame rfl rfl rfl rfl (fun _ => rfl) rfl
  · simp only [step,bind_ok_iff,Except.ok.injEq] at hs
    obtain ⟨-,-,rfl⟩ := hs
    exact h.frame rfl rfl rfl rfl (fun _ => rfl) (by simp [State.queueInLoop,sends])
  · simp only [step,bind_ok_iff,ensure_ok_iff,Except.ok.injEq] at hs
    obtain ⟨-,hempty,rfl⟩ := hs
    exact h.frame rfl rfl rfl rfl (fun _ => rfl) (by simp [hempty])

private theorem streamInv_runFunctor {s t : State} {answer : Except Int Nat} (h : StreamInv threadId s)
    (hs : step threadId cb s (.runFunctor answer) = .ok t) : StreamInv threadId t := by
  simp only [step] at hs
  split at hs
  · cases hs
  · rename_i f rest hf
    have hsends : sends s.functors = sends [f] ++ sends rest := by
      rw [hf,← sends_append,List.singleton_append]
    cases f with
    | sendInLoop c =>
      refine streamInv_sendInLoop (s := { s with functors := rest }) h.buffer h.stream h.inFlight (fun d hd => ?_)
        (fun u => ?_) h.numbered hs
      · refine h.queued d ?_
        rw [hsends,List.append_assoc]
        exact List.mem_append_right _ hd
      · have ho := h.order u
        rw [State.pipeline,hsends] at ho
        simpa only [sends_send,ofThread_append,List.append_assoc] using ho
    | shutDownInLoop =>
      cases hs
      have hq : sends rest ++ sends s.pendingFunctors = sends s.functors ++ sends s.pendingFunctors := by
        rw [hsends]
        rfl
      refine h.frame ?_ ?_ ?_ ?_ ?_ ?_ <;> (unfold State.shutDownInLoop; split <;> simp [hq])
    | writeComplete =>
      cases hs
      exact h.frame rfl rfl rfl rfl (fun _ => rfl) (by rw [hsends]; rfl)
    | connectedDestroyed =>
      simp only [State.runFunctor,State.connectedDestroyed,bind_ok_iff,Except.ok.injEq] at hs
      obtain ⟨-,-,rfl⟩ := hs
      exact h.frame rfl rfl rfl rfl (fun _ => rfl) (by rw [hsends]; rfl)

theorem streamInv_step {s t : State} {a : Label} (h : StreamInv threadId s)
    (hs : step threadId cb s a = .ok t) : StreamInv threadId t := by
  cases a with
  | send u m answer => exact streamInv_send h hs
  | proceed u => exact streamInv_proceed h hs
  | handleWrite answer => exact streamInv_handleWrite h hs
  | runFunctor answer => exact streamInv_runFunctor h hs
  | shutDown | connectedEstablished | handleRead | handleClose | queueConnectedDestroyed | swapFunctors =>
    exact streamInv_events h (by simp) hs

theorem streamInv_reachable {s : State} (h : (machine threadId cb).Reachable s) : StreamInv threadId s := by
  refine h.invariant (P := StreamInv threadId) (fun s hs => ?_) (fun s a t hi hs => streamInv_step hi hs)
  rw [show s = initial from hs]
  exact streamInv_initial

/-- In every interleaving and for all write results: the bytes the kernel took,
followed by the buffered ones, are the payloads of the accepted sends in the
order of their execution, and each thread's accepted sends are distinct calls in
the order in which it made them. -/
theorem outbound_stream_intact {s : State} (h : (machine threadId cb).Reachable s) :
    s.wire ++ s.outputBuffer.readable = (s.accepted.map Call.payload).flatten ∧
      ∀ t, (ofThread t s.accepted).Sublist (ofThread t s.calls) ∧ (ofThread t s.calls).Nodup := by
  have hi := streamInv_reachable h
  refine ⟨by rw [hi.stream,List.flatMap_def],fun t => ⟨?_,?_⟩⟩
  · refine List.Sublist.trans ?_ (hi.order t)
    simp only [State.pipeline,List.append_assoc]
    exact List.sublist_append_left ..
  · have hnodup : s.calls.Nodup := by
      refine List.Nodup.of_map Call.number ?_
      rw [hi.numbered]
      exact List.nodup_range
    exact hnodup.filter _

/-- Two threads send while the first write is short; the loop thread's own
message goes behind what is buffered. -/
theorem outbound_stream_intact_shortWrite :
    ∃ s, (machine 0 ⟨true,none,true⟩).Reachable s ∧ s.wire = [1,2] ∧ s.outputBuffer.readable = [3,7,8,9] ∧
      s.wire ++ s.outputBuffer.readable = (s.accepted.map Call.payload).flatten := by
  let labels : List Label := [.connectedEstablished,.send 1 (.string [1,2,3]) (.ok 0),
    .send 2 (.buffer (some ⟨List.replicate 8 0 ++ [8,9],8,10⟩)) (.ok 0),.proceed 1,.proceed 2,.swapFunctors,
    .runFunctor (.ok 1),.send 0 (.string [7]) (.ok 0),.handleWrite (.ok 1),.runFunctor (.error 11)]
  obtain ⟨s,hr,hv⟩ := (machine 0 ⟨true,none,true⟩).exists_reachable rfl labels
    (fun s => (s.wire,s.outputBuffer.readable)) (b := ([1,2],[3,7,8,9])) (by decide +kernel)
  obtain ⟨hwire,hbuffer⟩ := Prod.ext_iff.mp hv
  exact ⟨s,hr,hwire,hbuffer,(outbound_stream_intact hr).1⟩

end LinuxServer.Reactor.TcpConnection
