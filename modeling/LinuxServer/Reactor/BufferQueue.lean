import LinuxServer.Reactor.Buffer

/-! What a buffer is for: a queue of bytes. Any number of buffers are operated on
in any order, and each stays the queue its own history describes. -/
namespace LinuxServer.Reactor.BufferQueue
open LinuxServer.Lib
variable {ι : Type} [DecidableEq ι]

/-- A call on one of the buffers, or the exchange of two. -/
inductive Call (ι : Type) where
  | append (i : ι) (data : List UInt8)
  | appendInt8 (i : ι) (v : BitVec 8)
  | appendInt16 (i : ι) (v : BitVec 16)
  | appendInt32 (i : ι) (v : BitVec 32)
  | prepend (i : ι) (data : List UInt8)
  | retrieve (i : ι) (n : Nat)
  /-- The end pointer is given by its distance from Peek(). -/
  | retrieveUntil (i : ι) (n : Nat)
  | retrieveAll (i : ι)
  | retrieveAsString (i : ι)
  | ensureWritableBytes (i : ι) (n : Nat)
  /-- The caller stores the bytes at BeginWrite() and then reports them. -/
  | hasWritted (i : ι) (data : List UInt8)
  | readFd (i : ι) (savedErrno : Int) (answer : Except Int (List UInt8))
  | swap (i j : ι)

/-- Run one operation on one buffer of the store. -/
def on (s : ι → Buffer) (i : ι) (f : Buffer → Except Halt Buffer) : Except Halt (ι → Buffer) := do
  let b ← f (s i)
  .ok (Function.update s i b)

def exchange {α : Type} (s : ι → α) (i j : ι) : ι → α :=
  Function.update (Function.update s i (s j)) j (s i)

def step (s : ι → Buffer) : Call ι → Except Halt (ι → Buffer)
  | .append i data => on s i (·.append data)
  | .appendInt8 i v => on s i (·.appendInt8 v)
  | .appendInt16 i v => on s i (·.appendInt16 v)
  | .appendInt32 i v => on s i (·.appendInt32 v)
  | .prepend i data => on s i (·.prepend data)
  | .retrieve i n => on s i (·.retrieve n)
  | .retrieveUntil i n => on s i fun b => b.retrieveUntil (b.readerIndex + n)
  | .retrieveAll i => on s i fun b => .ok b.retrieveAll
  | .retrieveAsString i => on s i fun b => Prod.fst <$> b.retrieveAsString
  | .ensureWritableBytes i n => on s i (·.ensureWritableBytes n)
  | .hasWritted i data => on s i fun b => (·.hasWritted data.length) <$> b.store data
  | .readFd i savedErrno answer => on s i fun b => Prod.fst <$> b.readFd savedErrno answer
  | .swap i j => .ok (exchange s i j)

/-- What the operation itself asserts of its caller, and readv of the kernel. -/
def Pre (s : ι → Buffer) : Call ι → Prop
  | .prepend i data => data.length ≤ (s i).prependableBytes
  | .retrieve i n | .retrieveUntil i n => n ≤ (s i).readableBytes
  | .hasWritted i data => data.length ≤ (s i).writeableBytes
  | .readFd i _ (.ok data) => data.length ≤ (s i).writeableBytes + Buffer.extraBuf
  | _ => True

instance (s : ι → Buffer) (a : Call ι) : Decidable (Pre s a) := by
  cases a with
  | readFd i n r => cases r <;> unfold Pre <;> infer_instance
  | _ => unfold Pre; infer_instance

/-- The same calls on plain byte lists. -/
def spec (q : ι → List UInt8) : Call ι → (ι → List UInt8)
  | .append i data | .hasWritted i data | .readFd i _ (.ok data) =>
    Function.update q i (q i ++ data)
  | .appendInt8 i v => Function.update q i (q i ++ beBytes 1 v.toNat)
  | .appendInt16 i v => Function.update q i (q i ++ beBytes 2 v.toNat)
  | .appendInt32 i v => Function.update q i (q i ++ beBytes 4 v.toNat)
  | .prepend i data => Function.update q i (data ++ q i)
  | .retrieve i n | .retrieveUntil i n => Function.update q i ((q i).drop n)
  | .retrieveAll i | .retrieveAsString i => Function.update q i []
  | .ensureWritableBytes _ _ | .readFd _ _ (.error _) => q
  | .swap i j => exchange q i j

def machine : Machine (ι → Buffer) (Call ι) Halt := ⟨fun s => s = fun _ => .new,step⟩

theorem on_ok {s : ι → Buffer} (hs : ∀ i, (s i).WF) (i : ι) (f : Buffer → Except Halt Buffer)
    {q : List UInt8} (hf : ∃ b, f (s i) = .ok b ∧ b.WF ∧ b.readable = q) :
    ∃ t, on s i f = .ok t ∧ (∀ j, (t j).WF) ∧
      (fun j => (t j).readable) = Function.update (fun j => (s j).readable) i q := by
  obtain ⟨b,he,hwf,hread⟩ := hf
  refine ⟨Function.update s i b,by simp only [on,he,ok_bind],?_,?_⟩
  · intro j
    by_cases hj : j = i
    · subst hj
      simpa using hwf
    · simpa [hj] using hs j
  · funext j
    by_cases hj : j = i
    · subst hj
      simpa using hread
    · simp [hj]

/-- One call on well-formed buffers succeeds, keeps them well formed and does to
the contents what the call does to the byte lists. -/
theorem step_ok {s : ι → Buffer} (hs : ∀ i, (s i).WF) {a : Call ι} (ha : Pre s a) :
    ∃ t, step s a = .ok t ∧ (∀ i, (t i).WF) ∧
      (fun i => (t i).readable) = spec (fun i => (s i).readable) a := by
  cases a with
  | append i data =>
    obtain ⟨b,he,hwf,hread,-⟩ := Buffer.append_ok (hs i) data
    exact on_ok hs i (·.append data) ⟨b,he,hwf,hread⟩
  | appendInt8 i v =>
    obtain ⟨b,he,hwf,hread,-⟩ := Buffer.append_ok (hs i) (memoryBytes 1 v)
    exact on_ok hs i (·.appendInt8 v) ⟨b,he,hwf,hread⟩
  | appendInt16 i v =>
    obtain ⟨b,he,hwf,hread,-⟩ := Buffer.append_ok (hs i) (memoryBytes 2 (hostToNetwork16 v))
    exact on_ok hs i (·.appendInt16 v) ⟨b,he,hwf,by rw [hread,memory_hostToNetwork16]⟩
  | appendInt32 i v =>
    obtain ⟨b,he,hwf,hread,-⟩ := Buffer.append_ok (hs i) (memoryBytes 4 (hostToNetwork32 v))
    exact on_ok hs i (·.appendInt32 v) ⟨b,he,hwf,by rw [hread,memory_hostToNetwork32]⟩
  | prepend i data => exact on_ok hs i (·.prepend data) (Buffer.prepend_ok (hs i) ha)
  | retrieve i n => exact on_ok hs i (·.retrieve n) (Buffer.retrieve_ok (hs i) ha)
  | retrieveUntil i n => exact on_ok hs i (fun b => b.retrieveUntil (b.readerIndex + n)) (Buffer.retrieveUntil_ok (hs i) ha)
  | retrieveAll i =>
    exact on_ok hs i (fun b => .ok b.retrieveAll) ⟨_,rfl,Buffer.retrieveAll_wf (hs i),Buffer.readable_retrieveAll _⟩
  | retrieveAsString i =>
    refine on_ok hs i (fun b => Prod.fst <$> b.retrieveAsString) ⟨_,?_,Buffer.retrieveAll_wf (hs i),Buffer.readable_retrieveAll _⟩
    rw [Buffer.retrieveAsString_ok (hs i)]
    rfl
  | ensureWritableBytes i n =>
    obtain ⟨b,he,hwf,hread,-⟩ := Buffer.ensureWritableBytes_ok (hs i) n
    obtain ⟨t,ht,hw,hr⟩ := on_ok hs i (·.ensureWritableBytes n) ⟨b,he,hwf,hread⟩
    exact ⟨t,ht,hw,hr.trans (Function.update_eq_self i _)⟩
  | hasWritted i data =>
    obtain ⟨b,he,-,-,-,hwf,hread⟩ := Buffer.store_ok (hs i) ha
    refine on_ok hs i (fun b => (·.hasWritted data.length) <$> b.store data) ⟨_,?_,hwf,hread⟩
    rw [he]
    rfl
  | readFd i saved r =>
    cases r with
    | error errno =>
      obtain ⟨t,ht,hw,hr⟩ := on_ok hs i (fun b => Prod.fst <$> b.readFd saved (.error errno))
        ⟨s i,rfl,hs i,rfl⟩
      exact ⟨t,ht,hw,hr.trans (Function.update_eq_self i _)⟩
    | ok data =>
      obtain ⟨b,he,hwf,hread⟩ := Buffer.readFd_ok (hs i) saved data
      refine on_ok hs i (fun b => Prod.fst <$> b.readFd saved (.ok data)) ⟨b,?_,hwf,hread⟩
      rw [he]
      rfl
  | swap i j =>
    refine ⟨_,rfl,?_,?_⟩
    · intro k
      simp only [exchange,Function.update_apply]
      split
      · exact hs i
      · split
        · exact hs j
        · exact hs k
    · funext k
      simp only [exchange,spec,Function.update_apply]
      split
      · rfl
      · split <;> rfl

/-- Histories of calls whose own asserts hold run to their end. -/
theorem run_ok {calls : List (Call ι)} (h : machine.Along Pre (fun _ => Buffer.new) calls) :
    ∃ bufs : ι → Buffer, machine.run (fun _ => .new) calls = .ok bufs ∧ (∀ i, (bufs i).WF) ∧
      (fun i => (bufs i).readable) = calls.foldl spec (fun _ => []) :=
  machine.run_refines (fun s i => (s i).readable) spec
    (P := fun s => ∀ i, (s i).WF) (fun _ _ hs ha => step_ok hs ha) (fun _ => Buffer.new_wf) h

/-- A buffer that some history of calls on any number of buffers leaves behind. -/
def Reached (b : Buffer) : Prop :=
  ∃ (calls : List (Call Nat)) (bufs : Nat → Buffer) (i : Nat),
    machine.Along Pre (fun _ => Buffer.new) calls ∧ machine.run (fun _ => .new) calls = .ok bufs ∧ bufs i = b

theorem Reached.wf {b : Buffer} (h : Reached b) : b.WF := by
  obtain ⟨calls,bufs,i,hc,hr,rfl⟩ := h
  obtain ⟨bufs',hr',hwf,-⟩ := run_ok hc
  rw [hr] at hr'
  cases hr'
  exact hwf i
theorem reached_new : Reached .new := ⟨[],fun _ => .new,0,trivial,rfl,rfl⟩
/-- Any bytes are the contents of some buffer. -/
theorem exists_reached (bytes : List UInt8) : ∃ b, Reached b ∧ b.readable = bytes := by
  have hpre : machine.Along Pre (fun _ => Buffer.new) [Call.append 0 bytes] := by
    refine ⟨trivial,?_⟩
    cases machine.step (fun _ => Buffer.new) (Call.append 0 bytes) with
    | ok t => exact trivial
    | error e => exact trivial
  obtain ⟨bufs,hrun,-,hspec⟩ := run_ok hpre
  refine ⟨bufs 0,⟨[.append 0 bytes],bufs,0,hpre,hrun,rfl⟩,?_⟩
  rw [congrFun hspec 0,List.foldl_cons,List.foldl_nil,spec,Function.update_self,List.nil_append]

/-- Every history of calls whose own asserts hold runs to its end, and leaves in
each buffer the byte list the history describes, with the index discipline and
the cheap-prepend room of an empty buffer intact. -/
theorem buffer_refines_byteQueue (calls : List (Call ι))
    (h : machine.Along Pre (fun _ => Buffer.new) calls) :
    ∃ bufs : ι → Buffer, machine.run (fun _ => .new) calls = .ok bufs ∧
      ∀ i, (bufs i).readable = calls.foldl spec (fun _ => []) i ∧
        (bufs i).readerIndex ≤ (bufs i).writerIndex ∧
        (bufs i).writerIndex ≤ (bufs i).vBuffer.length ∧
        8 ≤ (bufs i).writerIndex ∧
        ((bufs i).readable = [] → 8 ≤ (bufs i).prependableBytes) := by
  obtain ⟨t,ht,hwf,hread⟩ := run_ok h
  refine ⟨t,ht,fun i => ⟨congrFun hread i,(hwf i).reader_le,(hwf i).writer_le,(hwf i).cheap_le,?_⟩⟩
  intro he
  have hcheap := (hwf i).cheap_le
  rw [← (hwf i).empty_iff.mp he] at hcheap
  exact hcheap

/-- Appending past the vector, taking most of it back and appending again runs
through growth and sliding. -/
theorem buffer_refines_byteQueue_slide :
    let calls : List (Call Unit) := [.append () (List.replicate 1000 1),.retrieve () 990,
      .append () (List.replicate 60 2),.prepend () [7],.swap () (),.readFd () 0 (.ok [3])]
    machine.Along Pre (fun _ => Buffer.new) calls ∧
      ∃ bufs : Unit → Buffer, machine.run (fun _ => .new) calls = .ok bufs ∧
        (bufs ()).readable = [7] ++ List.replicate 10 1 ++ List.replicate 60 2 ++ [3] := by
  intro calls
  have h : machine.Along Pre (fun _ => Buffer.new) calls := by decide +kernel
  obtain ⟨bufs,hrun,hall⟩ := buffer_refines_byteQueue calls h
  exact ⟨h,bufs,hrun,(hall ()).1.trans (by decide +kernel)⟩

end LinuxServer.Reactor.BufferQueue
