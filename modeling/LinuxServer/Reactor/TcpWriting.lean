import LinuxServer.Reactor.TcpHalfClose

/-! The results of ::write in the two places that call it, and the channel's write
interest against the output that is pending. -/
namespace LinuxServer.Reactor.TcpConnection
open LinuxServer.Lib
variable {threadId : Thread} {cb : CallBacks}

section Results

def EINTR : Int := 4
def EWOULDBLOCK : Int := 11
def EPIPE : Int := 32
def ECONNRESET : Int := 104

/-- What ::write gives for so many bytes on a non-blocking stream socket. -/
def SocketResult (size : Nat) : Except Int Nat → Prop
  | .ok nWrite => 0 < nWrite ∧ nWrite ≤ size
  | .error errno => errno ∈ [EWOULDBLOCK,EINTR,EPIPE,ECONNRESET]

/-- handleWrite returns with the connection as it was, the kernel has what it took and the
output buffer the rest, and sendInLoop leaves the same rest of such a message wherever it
writes directly. -/
def KeepsUnwritten (threadId : Thread) (cb : CallBacks) (s : State) (answer : Except Int Nat) : Prop :=
  ∃ t, s.handleWrite cb answer = .ok t ∧ t.connectState = s.connectState ∧
    t.wire = s.wire ++ s.outputBuffer.readable.take (nWriteOf answer) ∧
    t.outputBuffer.readable = s.outputBuffer.readable.drop (nWriteOf answer) ∧
    ∀ r c, (machine threadId cb).Reachable r → r.connectState ≠ .disconnected → r.Direct →
      c.payload = s.outputBuffer.readable → ∃ u, r.sendInLoop cb c answer = .ok u ∧
        u.wire = r.wire ++ c.payload.take (nWriteOf answer) ∧ u.outputBuffer.readable = t.outputBuffer.readable

private theorem writeDirectly_ok {s : State} {data : List UInt8} {answer : Except Int Nat}
    (hn : nWriteOf answer ≤ data.length) : ∃ r, s.writeDirectly cb data answer = .ok r := by
  unfold State.writeDirectly
  split
  · cases answer with
    | ok nWrite =>
      rw [State.write,ensure_of _ (show nWrite ≤ data.length from hn),ok_bind,ok_bind]
      exact ⟨_,rfl⟩
    | error errno => exact ⟨_,rfl⟩
  · exact ⟨_,rfl⟩

/-- No result of ::write stops sendInLoop. -/
theorem sendInLoop_ok {s : State} {c : Call} {answer : Except Int Nat} (h : s.outputBuffer.WF)
    (hn : nWriteOf answer ≤ c.payload.length) : ∃ t, s.sendInLoop cb c answer = .ok t := by
  unfold State.sendInLoop
  by_cases hd : s.connectState = .disconnected
  · rw [if_pos hd]
    exact ⟨_,rfl⟩
  · obtain ⟨r,hr⟩ := @writeDirectly_ok cb s _ _ hn
    obtain ⟨n,hle,-,rfl⟩ := writeDirectly_cases h hr
    rw [if_neg hd,hr,ok_bind]
    simp only [ensure_of _ (Nat.sub_le _ _),ok_bind]
    split
    · obtain ⟨b,hb,-⟩ := Buffer.append_ok h ((c.payload.drop n).take (c.payload.length - n))
      simp only [hb,ok_bind]
      exact ⟨_,rfl⟩
    · exact ⟨_,rfl⟩

/-- With nothing pending, what ::write does not take goes to the output buffer. -/
theorem sendInLoop_direct {s : State} {c : Call} {answer : Except Int Nat} (h : s.outputBuffer.WF)
    (hup : s.connectState ≠ .disconnected) (hd : s.Direct) (hn : nWriteOf answer ≤ c.payload.length) :
    ∃ t, s.sendInLoop cb c answer = .ok t ∧ t.wire = s.wire ++ c.payload.take (nWriteOf answer) ∧
      t.outputBuffer.readable = c.payload.drop (nWriteOf answer) := by
  obtain ⟨t,ht⟩ := @sendInLoop_ok cb _ _ _ h hn
  refine ⟨t,ht,?_⟩
  rcases sendInLoop_cases h ht with ⟨hdown,-⟩ | ⟨-,n,b,-,hcount,-,hread,rfl⟩
  · exact absurd hdown hup
  · rw [State.nWrite,if_pos hd] at hcount
    rw [hd.2,List.nil_append,hcount] at hread
    exact ⟨by rw [hcount],hread⟩

theorem handleWrite_count {s : State} {n : Nat} (h : s.outputBuffer.WF) (hw : s.writing = true) (hpos : 0 < n)
    (hle : n ≤ s.outputBuffer.readable.length) :
    ∃ t, s.handleWrite cb (.ok n) = .ok t ∧ t.connectState = s.connectState ∧
      t.wire = s.wire ++ s.outputBuffer.readable.take n ∧
      t.outputBuffer.readable = s.outputBuffer.readable.drop n := by
  have hok : ∃ t, s.handleWrite cb (.ok n) = .ok t := by
    have hpeek := Buffer.peek_ok h (le_refl _)
    rw [← h.readable_length,List.take_length] at hpeek
    obtain ⟨b,hb,-⟩ := Buffer.retrieve_ok h (n := n) (by rwa [← h.readable_length])
    rw [State.handleWrite,if_pos hw,← h.readable_length,hpeek,ok_bind,State.write,ensure_of _ hle,ok_bind,ok_bind]
    simp only [if_pos hpos,hb,ok_bind]
    split <;> exact ⟨_,rfl⟩
  obtain ⟨t,ht⟩ := hok
  refine ⟨t,ht,?_⟩
  rcases handleWrite_cases h ht with ⟨hidle,-⟩ | ⟨-,m,b,hm,-,-,-,hread,rfl⟩
  · cases hidle.symm.trans hw
  · cases hm
    exact ⟨rfl,rfl,hread⟩

/-- An error of ::write is a fatal log line, which aborts. -/
theorem handleWrite_error {s : State} (h : s.outputBuffer.WF) (hw : s.writing = true) (errno : Int) :
    s.handleWrite cb (.error errno) = .error (.fatal "") := by
  have hpeek := Buffer.peek_ok h (le_refl _)
  rw [State.handleWrite,if_pos hw,hpeek]
  rfl

/-- For every reachable state and every result of a stream socket: handleWrite keeps the
process and what was not taken, as sendInLoop does, if and only if ::write gives a count.
A channel without write interest writes nothing. -/
theorem handleWrite_keeps_unwritten_iff {s : State} {answer : Except Int Nat} (h : (machine threadId cb).Reachable s)
    (ha : SocketResult s.outputBuffer.readable.length answer) :
    (s.writing = true → (KeepsUnwritten threadId cb s answer ↔ ∃ n, answer = .ok n)) ∧
      (s.writing = false → s.handleWrite cb answer = .ok s) := by
  have hb := (streamInv_reachable h).buffer
  refine ⟨fun hw => ?_,fun hw => if_neg (by rw [hw]; exact Bool.false_ne_true)⟩
  cases answer with
  | ok n =>
    refine iff_of_true ?_ ⟨n,rfl⟩
    obtain ⟨t,ht,hstate,hwire,hread⟩ := @handleWrite_count cb _ _ hb hw ha.1 ha.2
    refine ⟨t,ht,hstate,hwire,hread,fun r c hr hup hd hc => ?_⟩
    obtain ⟨u,hu,huwire,huread⟩ := @sendInLoop_direct cb _ c (.ok n)
      (streamInv_reachable hr).buffer hup hd (by rw [hc]; exact ha.2)
    exact ⟨u,hu,huwire,by rw [huread,hread,hc]; rfl⟩
  | error errno =>
    refine iff_of_false ?_ ?_
    · rintro ⟨t,ht,-⟩
      cases (handleWrite_error hb hw errno).symm.trans ht
    · rintro ⟨n,hn⟩
      cases hn

/-- A message goes out in two writes. -/
theorem handleWrite_keeps_unwritten_iff_short : ∃ s, (machine 0 ⟨true,none,true⟩).Reachable s ∧
    s.outputBuffer.readable = [2,3] ∧ KeepsUnwritten 0 ⟨true,none,true⟩ s (.ok 1) := by
  obtain ⟨s,hr,hv⟩ := (machine 0 ⟨true,none,true⟩).exists_reachable rfl
    [.connectedEstablished,.send 0 (.string [1,2,3]) (.ok 1)] (fun s => (s.outputBuffer.readable,s.writing))
    (b := ([2,3],true)) (by decide +kernel)
  obtain ⟨hread,hwriting⟩ := Prod.ext_iff.mp hv
  have ha : SocketResult s.outputBuffer.readable.length (.ok 1) := by
    rw [show s.outputBuffer.readable = [2,3] from hread]
    exact ⟨Nat.one_pos,Nat.one_le_ofNat⟩
  exact ⟨s,hr,hread,((handleWrite_keeps_unwritten_iff hr ha).1 hwriting).mpr ⟨1,rfl⟩⟩

/-- The peer resets the connection while output is pending. The failed read is only
logged; the write that follows in the same event aborts the process. -/
theorem reset_aborts : ∃ s, (machine 0 ⟨true,none,true⟩).Reachable s ∧ s.connectState = .connected ∧
    s.writing = true ∧ s.outputBuffer.readable = [2] ∧
    SocketResult s.outputBuffer.readable.length (.error EPIPE) ∧
    s.handleWrite ⟨true,none,true⟩ (.error EPIPE) = .error (.fatal "") ∧
    ¬ KeepsUnwritten 0 ⟨true,none,true⟩ s (.error EPIPE) := by
  obtain ⟨s,hr,hv⟩ := (machine 0 ⟨true,none,true⟩).exists_reachable rfl
    [.connectedEstablished,.send 0 (.string [1,2]) (.ok 1),.handleRead (.error ECONNRESET)]
    (fun s => (s.connectState,s.writing,s.outputBuffer.readable)) (b := (.connected,true,[2])) (by decide +kernel)
  simp only [Prod.mk.injEq] at hv
  obtain ⟨hstate,hwriting,hread⟩ := hv
  have hfatal := @handleWrite_error ⟨true,none,true⟩ _ (streamInv_reachable hr).buffer hwriting EPIPE
  refine ⟨s,hr,hstate,hwriting,hread,by simp [SocketResult],hfatal,?_⟩
  rintro ⟨t,ht,-⟩
  cases hfatal.symm.trans ht

end Results

section Interest

/-- handleClose has not run; it calls the close callback at once. ConnectedDestroyed is
queued by the owner only from there. -/
def State.Open (s : State) : Prop := .close ∉ s.events

instance (s : State) : Decidable s.Open := inferInstanceAs (Decidable (_ ∉ _))

/-- ConnectedDestroyed is queued or will be. -/
def State.Torn (s : State) : Prop := 0 < s.closed ∨ .connectedDestroyed ∈ s.functors ++ s.pendingFunctors

/-- The step starts sendInLoop. -/
def sendsInLoop (threadId : Thread) (s : State) : Label → Bool
  | .send _ (.buffer none) _ => false
  | .send t _ _ => decide (t = threadId ∧ s.connectState = .connected)
  | .runFunctor _ => s.functors.head?.any fun
    | .sendInLoop _ => true
    | _ => false
  | _ => false

/-- The write-complete functors that a step queued. -/
def completed (s t : State) : Nat := (t.pendingFunctors.drop s.pendingFunctors.length).count .writeComplete

theorem completed_append {s t : State} (fs : List Functor) (h : t.pendingFunctors = s.pendingFunctors ++ fs) :
    completed s t = fs.count .writeComplete := by
  rw [completed,h,List.drop_left]

theorem completed_completions {s t : State} {done : Prop} [Decidable done]
    (h : t.pendingFunctors = s.pendingFunctors ++ completions cb done) :
    completed s t = if done ∧ cb.writeComplete = true then 1 else 0 := by
  rw [completed_append _ h,completions]
  split <;> rfl

theorem completed_pos_iff {s t : State} {done : Prop} [Decidable done]
    (h : t.pendingFunctors = s.pendingFunctors ++ completions cb done) :
    0 < completed s t ↔ cb.writeComplete = true ∧ done := by
  rw [completed_completions h]
  split
  · rename_i hd
    exact iff_of_true Nat.one_pos hd.symm
  · rename_i hd
    exact iff_of_false (lt_irrefl 0) fun hn => hd hn.symm

/-- The notifications that were called or are queued. -/
def notified (s : State) : Nat :=
  s.events.count .writeComplete + (s.functors ++ s.pendingFunctors).count .writeComplete

/-- What a step leaves alone that neither writes nor closes. -/
structure Quiet (s t : State) : Prop where
  writing : t.writing = s.writing
  outputBuffer : t.outputBuffer = s.outputBuffer
  wire : t.wire = s.wire
  accepted : t.accepted = s.accepted
  calls : s.calls ⊆ t.calls
  opened : t.Open → s.Open
  torn : t.Torn → s.Torn
  disconnecting : s.connectState = .disconnecting → t.connectState = .disconnecting
  disconnected : t.connectState = .disconnected → s.connectState = .disconnected
  completed : completed s t = 0
  notified : notified t = notified s

/-- The step executes ShutDownWrite exactly if it is one of ShutsDown. -/
def ShutBy (threadId : Thread) (s : State) (a : Label) (t : State) : Prop :=
  t.shutDown = true ↔ s.shutDown = true ∨ ShutsDown threadId s a

/-- What a step does to the output and the channel's write interest. -/
inductive Move (threadId : Thread) (cb : CallBacks) (s : State) (a : Label) (t : State) : Prop where
  | quiet (h : Quiet s t) (ha : sendsInLoop threadId s a = false) (hsd : ShutBy threadId s a t)
  | sends (r : State) (c : Call) (answer : Except Int Nat) (h : Quiet s r) (hp : r.pendingFunctors = s.pendingFunctors)
    (hsd : r.shutDown = s.shutDown) (ha : sendsInLoop threadId s a = true) (hs : r.sendInLoop cb c answer = .ok t)
  | writes (answer : Except Int Nat) (ha : a = .handleWrite answer) (hs : s.handleWrite cb answer = .ok t)
  | closes (hw : t.writing = false) (hb : t.outputBuffer = s.outputBuffer) (hc : completed s t = 0)
    (hn : notified t = notified s) (ho : t.Open → s.Open ∧ s.Torn) (hsd : ShutBy threadId s a t)

/-- Only parts that have nothing to do with the output change. -/
theorem Quiet.of_eq {s t : State} (hcalls : s.calls ⊆ t.calls)
    (h : t = { s with inputBuffer := t.inputBuffer, pc := t.pc, calls := t.calls, shutDown := t.shutDown }) : Quiet s t := by
  rw [h]
  exact ⟨rfl,rfl,rfl,rfl,hcalls,id,id,id,id,by simp [TcpConnection.completed],rfl⟩

theorem Quiet.refl (s : State) : Quiet s s := .of_eq (List.Subset.refl _) rfl

/-- Queueing a functor that is neither a notification nor the end. -/
theorem quiet_queueInLoop (s : State) {f : Functor} (hn : f ≠ .writeComplete) (hd : f ≠ .connectedDestroyed) :
    Quiet s (s.queueInLoop f) := by
  refine ⟨rfl,rfl,rfl,rfl,List.Subset.refl _,id,fun ht => ht.imp_right fun hm => ?_,id,id,?_,?_⟩
  · rw [State.queueInLoop,← List.append_assoc] at hm
    exact (List.mem_append.mp hm).resolve_right fun he => hd (List.mem_singleton.mp he).symm
  · rw [completed_append [f] rfl,List.count_singleton,if_neg (by simpa using hn)]
  · simp [State.queueInLoop,TcpConnection.notified,hn]

theorem Quiet.trans {s r t : State} (h : Quiet s r) (hr : Quiet r t) (hp : r.pendingFunctors = s.pendingFunctors) :
    Quiet s t := by
  refine ⟨hr.writing.trans h.writing,hr.outputBuffer.trans h.outputBuffer,hr.wire.trans h.wire,
    hr.accepted.trans h.accepted,List.Subset.trans h.calls hr.calls,h.opened ∘ hr.opened,h.torn ∘ hr.torn,
    hr.disconnecting ∘ h.disconnecting,h.disconnected ∘ hr.disconnected,?_,hr.notified.trans h.notified⟩
  have hzero := hr.completed
  rwa [TcpConnection.completed,hp] at hzero

theorem quiet_shutDownInLoop (s : State) : Quiet s s.shutDownInLoop := by
  unfold State.shutDownInLoop
  split
  · exact .of_eq (List.Subset.refl _) rfl
  · exact .refl s

theorem shutDownInLoop_iff (s : State) : s.shutDownInLoop.shutDown = true ↔ s.shutDown = true ∨ s.writing = false := by
  by_cases hw : s.writing = false
  · rw [shutDownInLoop_idle hw]
    exact iff_of_true rfl (.inr hw)
  · rw [shutDownInLoop_busy hw]
    exact (or_iff_left hw).symm

theorem ShutBy.of_not {s t : State} {a : Label} (h : t.shutDown = s.shutDown) (hn : ¬ ShutsDown threadId s a) :
    ShutBy threadId s a t := by
  rw [ShutBy,h]
  exact (or_iff_left hn).symm

theorem sendsInLoop_send {s : State} {t : Thread} {m : Message} {bytes : List UInt8} (answer : Except Int Nat)
    (hm : m.payload = .ok (some bytes)) :
    sendsInLoop threadId s (.send t m answer) = decide (t = threadId ∧ s.connectState = .connected) := by
  rcases m with _ | (_ | _)
  · rfl
  · cases hm
  · rfl

theorem sendsInLoop_nothing {s : State} {t : Thread} {m : Message} (answer : Except Int Nat)
    (hm : m.payload = .ok none) : sendsInLoop threadId s (.send t m answer) = false := by
  rcases m with _ | (_ | b)
  · cases hm
  · rfl
  · simp [Message.payload,bind_ok_iff] at hm

private theorem move_send {s t : State} {u : Thread} {m : Message} {answer : Except Int Nat}
    (hs : step threadId cb s (.send u m answer) = .ok t) : Move threadId cb s (.send u m answer) t := by
  obtain ⟨-,⟨rfl,hm | ⟨bytes,hm,hconnected⟩⟩ | ⟨bytes,hm,hconnected,hs⟩⟩ := send_cases hs
  · exact .quiet (.refl t) (sendsInLoop_nothing answer hm) (.of_not rfl id)
  · refine .quiet (.refl t) ?_ (.of_not rfl id)
    rw [sendsInLoop_send answer hm]
    exact decide_eq_false fun h => hconnected h.2
  · have hcalls : s.calls ⊆ s.calls ++ [⟨u,s.calls.length,bytes⟩] := List.subset_append_left ..
    rcases hs with ⟨hu,hs⟩ | ⟨hu,rfl⟩
    · refine .sends { s with calls := s.calls ++ [⟨u,s.calls.length,bytes⟩] } _ answer (.of_eq hcalls rfl) rfl rfl ?_ hs
      rw [sendsInLoop_send answer hm]
      exact decide_eq_true ⟨hu,hconnected⟩
    · refine .quiet (.of_eq hcalls rfl) ?_ (.of_not rfl id)
      rw [sendsInLoop_send answer hm]
      exact decide_eq_false fun h => hu h.1

private theorem move_runFunctor {s t : State} {answer : Except Int Nat}
    (hs : step threadId cb s (.runFunctor answer) = .ok t) : Move threadId cb s (.runFunctor answer) t := by
  simp only [step] at hs
  split at hs
  · cases hs
  · rename_i f rest hf
    have hmem : ∀ g ∈ rest ++ s.pendingFunctors, g ∈ s.functors ++ s.pendingFunctors := fun g hg => by
      rw [hf]
      exact List.mem_cons_of_mem _ hg
    -- taking a functor that is no notification off the batch
    have hrest : f ≠ .writeComplete → Quiet s { s with functors := rest } := fun hne =>
      ⟨rfl,rfl,rfl,rfl,List.Subset.refl _,id,fun ht => ht.imp_right (hmem _),id,id,by simp [completed],
        by simp [notified,hf,hne]⟩
    cases f with
    | sendInLoop c => exact .sends { s with functors := rest } c answer (hrest (by simp)) rfl rfl (by simp [sendsInLoop,hf]) hs
    | shutDownInLoop =>
      cases hs
      refine .quiet ((hrest (by simp)).trans (quiet_shutDownInLoop _) rfl) (by simp [sendsInLoop,hf]) ?_
      rw [ShutBy,shutDownInLoop_iff]
      simp [ShutsDown,hf]
    | writeComplete =>
      cases hs
      refine .quiet ⟨rfl,rfl,rfl,rfl,List.Subset.refl _,fun ho hm => ho (List.mem_append_left _ hm),
        fun ht => ht.imp_right (hmem _),id,id,by simp [completed],?_⟩ (by simp [sendsInLoop,hf])
        (.of_not rfl (by simp [ShutsDown,hf]))
      simp only [notified,hf,List.count_append,List.count_cons_self,List.count_nil]
      omega
    | connectedDestroyed =>
      simp only [State.runFunctor,State.connectedDestroyed,bind_ok_iff,Except.ok.injEq] at hs
      obtain ⟨-,-,rfl⟩ := hs
      refine .closes rfl rfl (by simp [completed]) (by simp [notified,hf]) (fun ho => ⟨ho,.inr ?_⟩)
        (.of_not rfl (by simp [ShutsDown,hf]))
      rw [hf]
      exact List.mem_cons_self

private theorem move_proceed {s t : State} {u : Thread} (hs : step threadId cb s (.proceed u) = .ok t) :
    Move threadId cb s (.proceed u) t := by
  have hidle : Quiet s { s with pc := Function.update s.pc u .idle } := .of_eq (List.Subset.refl _) rfl
  simp only [step] at hs
  split at hs
  · cases hs
  · cases hs
    exact .quiet (hidle.trans (quiet_queueInLoop _ (by simp) (by simp)) rfl) rfl (.of_not rfl id)
  · cases hs
    exact .quiet ⟨rfl,rfl,rfl,rfl,List.Subset.refl _,id,id,fun _ => rfl,fun h => (by cases h),by simp [completed],rfl⟩
      rfl (.of_not rfl id)
  · cases hs
    exact .quiet (hidle.trans (quiet_queueInLoop _ (by simp) (by simp)) rfl) rfl (.of_not rfl id)

/-- A close drops the interest, but not what is pending. -/
private theorem move_of_handleClose {s r t : State} {a : Label} (hr : Quiet s r)
    (hp : r.pendingFunctors = s.pendingFunctors) (hsd : r.shutDown = s.shutDown) (hn : ¬ ShutsDown threadId s a)
    (hs : r.handleClose = .ok t) : Move threadId cb s a t := by
  simp only [State.handleClose,bind_ok_iff,Except.ok.injEq] at hs
  obtain ⟨-,-,rfl⟩ := hs
  refine .closes rfl hr.outputBuffer (by simp [completed,hp]) ?_ (fun ho => ?_) (.of_not hsd hn)
  · rw [← hr.notified]
    simp [notified]
  · exact absurd (List.mem_append_right _ (List.mem_singleton_self _)) ho

private theorem move_handleRead {s t : State} {answer : Except Int (List UInt8)}
    (hs : step threadId cb s (.handleRead answer) = .ok t) : Move threadId cb s (.handleRead answer) t := by
  simp only [step,State.handleRead,bind_ok_iff] at hs
  obtain ⟨-,-,⟨b,n,e⟩,-,hs⟩ := hs
  have hread : Quiet s { s with inputBuffer := b } := .of_eq (List.Subset.refl _) rfl
  simp only at hs
  split at hs
  · split at hs
    · cases hs
      exact .quiet ⟨rfl,rfl,rfl,rfl,List.Subset.refl _,fun ho hm => ho (List.mem_append_left _ hm),id,id,id,
        by simp [completed],by simp [notified]⟩ rfl (.of_not rfl id)
    · cases hs
      exact .quiet hread rfl (.of_not rfl id)
  · split at hs
    · exact move_of_handleClose hread rfl rfl id hs
    · cases hs
      exact .quiet hread rfl (.of_not rfl id)

theorem move_of_step {s t : State} {a : Label} (hs : step threadId cb s a = .ok t) : Move threadId cb s a t := by
  cases a with
  | send u m answer => exact move_send hs
  | proceed u => exact move_proceed hs
  | runFunctor answer => exact move_runFunctor hs
  | handleRead answer => exact move_handleRead hs
  | handleWrite answer => exact .writes answer rfl hs
  | handleClose =>
    simp only [step,bind_ok_iff] at hs
    obtain ⟨-,-,hs⟩ := hs
    exact move_of_handleClose (.refl s) rfl rfl id hs
  | shutDown u =>
    simp only [step,bind_ok_iff] at hs
    obtain ⟨-,-,hs⟩ := hs
    split at hs
    · rename_i hconnected
      split at hs
      · rename_i hu
        cases hs
        have hstate : Quiet s { s with connectState := .disconnecting } :=
          ⟨rfl,rfl,rfl,rfl,List.Subset.refl _,id,id,fun _ => rfl,fun h => (by cases h),by simp [completed],rfl⟩
        refine .quiet (hstate.trans (quiet_shutDownInLoop _) rfl) rfl ?_
        rw [ShutBy,shutDownInLoop_iff]
        simp [ShutsDown,hconnected,hu]
      · rename_i hu
        cases hs
        exact .quiet (.of_eq (List.Subset.refl _) rfl) rfl (.of_not rfl fun h => hu h.2.1)
    · rename_i hconnected
      cases hs
      exact .quiet (.refl s) rfl (.of_not rfl fun h => hconnected h.1)
  | connectedEstablished =>
    simp only [step,State.connectedEstablished,bind_ok_iff,ensure_ok_iff,Except.ok.injEq] at hs
    obtain ⟨-,hconnecting,rfl⟩ := hs
    refine .quiet ⟨rfl,rfl,rfl,rfl,List.Subset.refl _,fun ho hm => ho ?_,id,fun h => ?_,fun h => (by cases h),
      by simp [completed],?_⟩ rfl (.of_not rfl id)
    · simp only
      split
      · exact List.mem_append_left _ hm
      · exact hm
    · cases hconnecting.symm.trans h
    · cases hcb : cb.connection <;> simp [notified]
  | queueConnectedDestroyed =>
    simp only [step,bind_ok_iff,ensure_ok_iff,Except.ok.injEq] at hs
    obtain ⟨-,hclosed,rfl⟩ := hs
    refine .quiet ⟨rfl,rfl,rfl,rfl,List.Subset.refl _,id,fun _ => .inl hclosed,id,id,?_,?_⟩ rfl (.of_not rfl id)
    · exact completed_append [.connectedDestroyed] rfl
    · simp [notified,State.queueInLoop]
  | swapFunctors =>
    simp only [step,bind_ok_iff,ensure_ok_iff,Except.ok.injEq] at hs
    obtain ⟨-,hempty,rfl⟩ := hs
    refine .quiet ⟨rfl,rfl,rfl,rfl,List.Subset.refl _,id,fun ht => ht.imp_right fun hm => ?_,id,id,
      by simp [completed],by simp [notified,hempty]⟩ rfl (.of_not rfl id)
    rw [hempty]
    rwa [List.append_nil] at hm

/-- Write interest is output that is pending, as long as the connection is not closed. -/
structure WriteInv (s : State) : Prop where
  busy : s.writing = true → s.outputBuffer.readable ≠ []
  pending : s.Open → s.outputBuffer.readable ≠ [] → s.writing = true
  untorn : s.Open → ¬ s.Torn
  up : s.Open → s.connectState ≠ .disconnected

theorem writeInv_initial : WriteInv initial :=
  ⟨fun h => (by cases h),fun _ h => absurd rfl h,fun _ h => (by simp [State.Torn,initial] at h),fun _ => by decide⟩

theorem writeInv_quiet {s t : State} (h : WriteInv s) (hq : Quiet s t) : WriteInv t := by
  refine ⟨?_,fun ho => ?_,fun ho => mt hq.torn (h.untorn (hq.opened ho)),
    fun ho => mt hq.disconnected (h.up (hq.opened ho))⟩
  · rw [hq.writing,hq.outputBuffer]
    exact h.busy
  · rw [hq.writing,hq.outputBuffer]
    exact h.pending (hq.opened ho)

private theorem torn_completions {s : State} {done : Prop} [Decidable done] (h : ¬ s.Torn) :
    ¬ (0 < s.closed ∨ .connectedDestroyed ∈ s.functors ++ (s.pendingFunctors ++ completions cb done)) := by
  rintro (hc | hm)
  · exact h (.inl hc)
  · rw [← List.append_assoc] at hm
    rcases List.mem_append.mp hm with hm | hm
    · exact h (.inr hm)
    · unfold completions at hm
      split at hm <;> simp at hm

/-- A rest that is appended turns the interest on; without one nothing changes. -/
theorem writeInv_sendInLoop {s t : State} {c : Call} {answer : Except Int Nat} (hb : s.outputBuffer.WF)
    (h : WriteInv s) (hs : s.sendInLoop cb c answer = .ok t) : WriteInv t := by
  rcases sendInLoop_cases hb hs with ⟨-,rfl⟩ | ⟨-,n,b,hn,-,-,hread,rfl⟩
  · exact ⟨h.busy,h.pending,h.untorn,h.up⟩
  · refine ⟨fun hw => ?_,fun ho hp => ?_,fun ho => torn_completions (h.untorn ho),h.up⟩
    · simp only at hw ⊢
      rw [hread]
      by_cases hrest : n < c.payload.length
      · have htail : c.payload.drop n ≠ [] := fun he => by
          have := List.drop_eq_nil_iff.mp he
          omega
        exact List.append_ne_nil_of_right_ne_nil _ htail
      · rw [if_neg hrest] at hw
        exact List.append_ne_nil_of_left_ne_nil (h.busy hw) _
    · simp only at hp ⊢
      split
      · rfl
      · rename_i hrest
        rw [hread,List.drop_eq_nil_of_le (by omega),List.append_nil] at hp
        exact h.pending ho hp

/-- The interest goes with the last byte. -/
theorem writeInv_handleWrite {s t : State} {answer : Except Int Nat} (hb : s.outputBuffer.WF) (h : WriteInv s)
    (hs : s.handleWrite cb answer = .ok t) : WriteInv t := by
  rcases handleWrite_cases hb hs with ⟨-,rfl⟩ | ⟨-,n,b,-,-,hn,-,hread,rfl⟩
  · exact h
  · have hdrained : b.readable = [] ↔ n = s.outputBuffer.readable.length := by
      rw [hread,List.drop_eq_nil_iff]
      omega
    refine ⟨fun hw => ?_,fun ho hp => ?_,fun ho => torn_completions (h.untorn ho),h.up⟩
    · simp only at hw ⊢
      rw [Ne,hdrained]
      intro hall
      rw [if_pos hall] at hw
      cases hw
    · simp only at hp ⊢
      rw [if_neg (mt hdrained.mpr hp)]

theorem writeInv_step {s t : State} {a : Label} (hb : s.outputBuffer.WF) (h : WriteInv s)
    (hs : step threadId cb s a = .ok t) : WriteInv t := by
  rcases move_of_step hs with ⟨hq,-,-⟩ | ⟨r,c,answer,hq,-,-,-,hs⟩ | ⟨answer,-,hs⟩ | ⟨hw,-,-,-,ho,-⟩
  · exact writeInv_quiet h hq
  · exact writeInv_sendInLoop (by rw [hq.outputBuffer]; exact hb) (writeInv_quiet h hq) hs
  · exact writeInv_handleWrite hb h hs
  · have hclosed : ¬ t.Open := fun ht => h.untorn (ho ht).1 (ho ht).2
    refine ⟨fun h => ?_,fun h => absurd h hclosed,fun h => absurd h hclosed,fun h => absurd h hclosed⟩
    cases hw.symm.trans h

theorem writeInv_reachable {s : State} (h : (machine threadId cb).Reachable s) : WriteInv s := by
  refine h.induction (P := WriteInv) (fun s hs => ?_) fun s a t hr hi hs => ?_
  · rw [show s = initial from hs]
    exact writeInv_initial
  · exact writeInv_step (streamInv_reachable hr).buffer hi hs

theorem ShutsDown.place {s : State} {a : Label} (h : ShutsDown threadId s a) :
    a = .handleWrite (.ok s.outputBuffer.readable.length) ∨ s.writing = false ∧ sendsInLoop threadId s a = false := by
  cases a with
  | handleWrite answer =>
    cases answer with
    | ok n => exact .inl (by rw [h.2.1])
    | error errno => cases h
  | shutDown u => exact .inr ⟨h.2.2,rfl⟩
  | runFunctor answer => exact .inr ⟨h.2,by rw [sendsInLoop,h.1]; rfl⟩
  | send | proceed | connectedEstablished | handleRead | handleClose | queueConnectedDestroyed | swapFunctors => cases h

/-- ShutDownWrite is executed by exactly these steps. -/
theorem shutDown_iff {s t : State} {a : Label} (hb : s.outputBuffer.WF) (hs : step threadId cb s a = .ok t) :
    t.shutDown = true ↔ s.shutDown = true ∨ ShutsDown threadId s a := by
  rcases move_of_step hs with ⟨-,-,hsd⟩ | ⟨r,c,answer,hq,-,hsd,ha,hrun⟩ | ⟨answer,rfl,hrun⟩ | ⟨-,-,-,-,-,hsd⟩
  · exact hsd
  · have hnot : ¬ ShutsDown threadId s a := fun h => by
      rcases h.place with rfl | ⟨-,hn⟩
      · cases ha
      · cases ha.symm.trans hn
    refine ShutBy.of_not (.trans ?_ hsd) hnot
    rcases sendInLoop_cases (by rw [hq.outputBuffer]; exact hb) hrun with ⟨-,rfl⟩ | ⟨-,n,b,-,-,-,-,rfl⟩ <;> rfl
  · rcases handleWrite_cases hb hrun with ⟨hw,rfl⟩ | ⟨hw,n,b,rfl,-,-,-,-,rfl⟩
    · cases answer with
      | ok n => simp [ShutsDown,hw]
      | error errno => exact (or_iff_left id).symm
    · simp only [ShutsDown,hw,true_and]
      split
      · rename_i hall
        exact iff_of_true rfl (.inr hall)
      · rename_i hall
        exact (or_iff_left hall).symm
  · exact hsd

/-- On an open connection ShutDownWrite leaves no output behind. -/
theorem readable_of_shutsDown {s t : State} {a : Label} (hb : s.outputBuffer.WF) (h : WriteInv s) (ho : s.Open)
    (hs : step threadId cb s a = .ok t) (hsd : ShutsDown threadId s a) : t.outputBuffer.readable = [] := by
  have hempty : s.writing = false → s.outputBuffer.readable = [] := fun hw => by
    by_contra hp
    cases hw.symm.trans (h.pending ho hp)
  rcases hsd.place with rfl | ⟨hw,hn⟩
  · rcases handleWrite_cases hb hs with ⟨hw,rfl⟩ | ⟨-,n,b,hn,-,-,-,hread,rfl⟩
    · exact hempty hw
    · cases hn
      exact hread.trans (List.drop_eq_nil_of_le le_rfl)
  · rcases move_of_step hs with ⟨hq,-,-⟩ | ⟨r,c,answer,-,-,-,ha,-⟩ | ⟨answer,rfl,hs⟩ | ⟨-,hout,-,-,-,-⟩
    · rw [hq.outputBuffer]
      exact hempty hw
    · cases hn.symm.trans ha
    · rcases handleWrite_cases hb hs with ⟨-,rfl⟩ | ⟨hbusy,-⟩
      · exact hempty hw
      · cases hw.symm.trans hbusy
    · rw [hout]
      exact hempty hw

/-- ShutDown was called while output is pending. -/
def State.Deferred (s : State) : Prop := s.connectState = .disconnecting ∧ s.outputBuffer.readable ≠ []

instance (s : State) : Decidable s.Deferred := inferInstanceAs (Decidable (_ ∧ _))

/-- One step on the way to the half-close: it stays deferred, or the output drains in
handleWrite, which executes it. -/
theorem deferred_step {s t : State} {a : Label} (hb : s.outputBuffer.WF) (h : WriteInv s) (hd : s.Deferred)
    (hs : step threadId cb s a = .ok t) (ho : t.Open) :
    (t.Deferred ∧ t.shutDown = s.shutDown) ∨
      (a = .handleWrite (.ok s.outputBuffer.readable.length) ∧ t.outputBuffer.readable = [] ∧
        ShutsDown threadId s a ∧ t.shutDown = true) := by
  obtain ⟨hstate,hp⟩ := hd
  have hsame : (¬ ShutsDown threadId s a) → t.shutDown = s.shutDown := fun hn => by
    rw [Bool.eq_iff_iff,shutDown_iff hb hs,or_iff_left hn]
  rcases move_of_step hs with ⟨hq,-,-⟩ | ⟨r,c,answer,hq,-,-,ha,hsend⟩ | ⟨answer,rfl,hwrite⟩ | ⟨-,-,-,-,hclosed,-⟩
  · have hpending : t.outputBuffer.readable ≠ [] := by rwa [hq.outputBuffer]
    refine .inl ⟨⟨hq.disconnecting hstate,hpending⟩,hsame fun hsd => hpending ?_⟩
    exact readable_of_shutsDown hb h (hq.opened ho) hs hsd
  · have hpending : r.outputBuffer.readable ≠ [] := by rwa [hq.outputBuffer]
    have hnot : ¬ ShutsDown threadId s a := fun hsd => by
      rcases hsd.place with rfl | ⟨-,hn⟩
      · cases ha
      · cases ha.symm.trans hn
    rcases sendInLoop_cases (by rw [hq.outputBuffer]; exact hb) hsend with ⟨-,rfl⟩ | ⟨-,n,b,-,-,-,hread,rfl⟩
    · exact .inl ⟨⟨hq.disconnecting hstate,hpending⟩,hsame hnot⟩
    · refine .inl ⟨⟨hq.disconnecting hstate,?_⟩,hsame hnot⟩
      simp only [hread]
      exact List.append_ne_nil_of_left_ne_nil hpending _
  · rcases handleWrite_cases hb hwrite with ⟨-,rfl⟩ | ⟨hw,n,b,rfl,-,hn,-,hread,rfl⟩
    · exact .inl ⟨⟨hstate,hp⟩,rfl⟩
    · by_cases hall : n = s.outputBuffer.readable.length
      · exact .inr ⟨by rw [hall],by simp only [hread,hall,List.drop_length],⟨hw,hall,hstate⟩,if_pos ⟨hall,hstate⟩⟩
      · refine .inl ⟨⟨hstate,?_⟩,hsame fun hsd => hall hsd.2.1⟩
        simp only [hread,Ne,List.drop_eq_nil_iff]
        omega
  · exact absurd (hclosed ho).2 (h.untorn (hclosed ho).1)

/-- The labels of a run up to the call of handleWrite that executed the half-close: at
that call the half-close was still to come and all pending output was written. -/
def Drained (threadId : Thread) (cb : CallBacks) (s : State) (labels : List Label) : Prop :=
  ∃ before after u v, labels = before ++ .handleWrite (.ok u.outputBuffer.readable.length) :: after ∧
    (machine threadId cb).run s before = .ok u ∧ u.Deferred ∧ u.shutDown = s.shutDown ∧
    u.handleWrite cb (.ok u.outputBuffer.readable.length) = .ok v ∧
    ShutsDown threadId u (.handleWrite (.ok u.outputBuffer.readable.length)) ∧
    v.outputBuffer.readable = [] ∧ v.shutDown = true

theorem Drained.cons {s t : State} {a : Label} {labels : List Label} (h : Drained threadId cb t labels)
    (hs : step threadId cb s a = .ok t) (hsd : t.shutDown = s.shutDown) : Drained threadId cb s (a :: labels) := by
  obtain ⟨before,after,u,v,rfl,hr,hd,hu,hv⟩ := h
  refine ⟨a :: before,after,u,v,rfl,?_,hd,hu.trans hsd,hv⟩
  rw [Machine.run_cons]
  exact (bind_ok_iff _ _ _).mpr ⟨t,hs,hr⟩

theorem open_of_step {s t : State} {a : Label} (hb : s.outputBuffer.WF) (hs : step threadId cb s a = .ok t)
    (ho : t.Open) : s.Open := by
  rcases move_of_step hs with ⟨hq,-,-⟩ | ⟨r,c,answer,hq,-,-,-,hs⟩ | ⟨answer,-,hs⟩ | ⟨-,-,-,-,hclosed,-⟩
  · exact hq.opened ho
  · refine hq.opened ?_
    rcases sendInLoop_cases (by rw [hq.outputBuffer]; exact hb) hs with ⟨-,rfl⟩ | ⟨-,n,b,-,-,-,-,rfl⟩ <;> exact ho
  · rcases handleWrite_cases hb hs with ⟨-,rfl⟩ | ⟨-,n,b,-,-,-,-,-,rfl⟩ <;> exact ho
  · exact (hclosed ho).1

theorem open_of_run {s t : State} {labels : List Label} (h : (machine threadId cb).Reachable s)
    (hr : (machine threadId cb).run s labels = .ok t) (ho : t.Open) : s.Open := by
  induction labels generalizing s with
  | nil => cases hr; exact ho
  | cons a labels ih =>
    obtain ⟨u,hu,hr⟩ := (bind_ok_iff _ _ _).mp hr
    exact open_of_step (streamInv_reachable h).buffer hu (ih (h.step hu) hr)

theorem deferred_run {s t : State} {labels : List Label} (h : (machine threadId cb).Reachable s) (hd : s.Deferred)
    (hr : (machine threadId cb).run s labels = .ok t) (ho : t.Open) :
    (t.Deferred ∧ t.shutDown = s.shutDown) ∨ Drained threadId cb s labels := by
  induction labels generalizing s with
  | nil => cases hr; exact .inl ⟨hd,rfl⟩
  | cons a labels ih =>
    obtain ⟨u,hu,hr⟩ := (bind_ok_iff _ _ _).mp hr
    have hopen := open_of_run (h.step hu) hr ho
    rcases deferred_step (streamInv_reachable h).buffer (writeInv_reachable h) hd hu hopen with
      ⟨hdu,hsd⟩ | ⟨rfl,hread,hsd,hshut⟩
    · rcases ih (h.step hu) hdu hr with ⟨hdt,ht⟩ | hdrained
      · exact .inl ⟨hdt,ht.trans hsd⟩
      · exact .inr (hdrained.cons hu hsd)
    · exact .inr ⟨[],labels,s,u,rfl,rfl,hd,rfl,hu,hsd,hread,hshut⟩

/-- In every reachable state without a close: the channel is writing if and only if output
is pending; ShutDownWrite is executed exactly by the steps of ShutsDown and leaves no
output; and from a shutdown that found output pending on, every run without a close has
it still deferred, or executed by the handleWrite that drained the buffer. -/
theorem writing_iff_pending {s : State} (h : (machine threadId cb).Reachable s) (ho : s.Open) :
    (s.writing = true ↔ s.outputBuffer.readable ≠ []) ∧
      (∀ a t, step threadId cb s a = .ok t →
        (t.shutDown = true ↔ s.shutDown = true ∨ ShutsDown threadId s a) ∧
        (ShutsDown threadId s a → t.outputBuffer.readable = [])) ∧
      (s.Deferred → ∀ labels t, (machine threadId cb).run s labels = .ok t → t.Open →
        (t.Deferred ∧ t.shutDown = s.shutDown) ∨ Drained threadId cb s labels) := by
  have hw := writeInv_reachable h
  have hb := (streamInv_reachable h).buffer
  refine ⟨⟨hw.busy,hw.pending ho⟩,fun a t hs => ⟨shutDown_iff hb hs,readable_of_shutsDown hb hw ho hs⟩,?_⟩
  exact fun hd labels t hr hot => deferred_run h hd hr hot

/-- A shutdown while two bytes are pending, which go out one by one. -/
theorem writing_iff_pending_twoWrites : ∃ s, (machine 0 ⟨true,none,true⟩).Reachable s ∧ s.writing = true ∧
    s.Deferred ∧ Drained 0 ⟨true,none,true⟩ s [.handleWrite (.ok 1),.handleWrite (.ok 1)] := by
  obtain ⟨s,hr,hv⟩ := (machine 0 ⟨true,none,true⟩).exists_reachable rfl
    [.connectedEstablished,.send 0 (.string [1,2,3]) (.ok 1),.shutDown 0]
    (fun s : State => (decide (s.Open ∧ s.Deferred),
      ((machine 0 ⟨true,none,true⟩).run s [.handleWrite (.ok 1),.handleWrite (.ok 1)]).toOption.map fun t : State =>
        decide (t.Open ∧ t.outputBuffer.readable = [])))
    (b := (true,some true)) (by decide +kernel)
  simp only [Prod.mk.injEq,decide_eq_true_eq] at hv
  obtain ⟨⟨ho,hd⟩,hrun⟩ := hv
  obtain ⟨t,ht,hv⟩ := (machine 0 ⟨true,none,true⟩).exists_run_eq _ _ hrun
  obtain ⟨hot,hempty⟩ := of_decide_eq_true hv
  have hall := writing_iff_pending hr ho
  refine ⟨s,hr,hall.1.mpr hd.2,hd,?_⟩
  exact (hall.2.2 hd _ t ht hot).resolve_left fun hdt => hdt.1.2 hempty

end Interest

end LinuxServer.Reactor.TcpConnection
