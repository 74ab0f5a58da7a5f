import LinuxServer.Reactor.BufferQueue

/-! Histories that also shrink. Shrink moves the contents to the initial offset
and leaves the indices alone, so it keeps the queue from there only. -/
namespace LinuxServer.Reactor.BufferShrink
open LinuxServer.Lib
variable {ι : Type} [DecidableEq ι]

/-- A call of the buffer's interface, Shrink included. -/
inductive Op (ι : Type) where
  | call (c : BufferQueue.Call ι)
  | shrink (i : ι) (reserve : Nat)

def step (s : ι → Buffer) : Op ι → Except Halt (ι → Buffer)
  | .call c => BufferQueue.step s c
  | .shrink i r => BufferQueue.on s i (·.shrink r)

def machine : Machine (ι → Buffer) (Op ι) Halt := ⟨fun s => s = fun _ => .new,step⟩

/-- What the operations assert of their caller; Shrink asserts nothing. -/
def Pre (s : ι → Buffer) : Op ι → Prop
  | .call c => BufferQueue.Pre s c
  | .shrink _ _ => True

/-- The contents fit, the size computation does not wrap, and the read index is at
its initial offset, or below it in front of bytes that are all zero. -/
def ShrinkSafe (b : Buffer) (reserve : Nat) : Prop :=
  b.writerIndex ≤ b.vBuffer.length ∧ cheapPrepend + b.readableBytes + reserve < 2 ^ 64 ∧
    (b.readerIndex = cheapPrepend ∨ b.readerIndex < cheapPrepend ∧ ∀ x ∈ b.readable, x = 0)

/-- The operations' own asserts, and every Shrink where it is safe. -/
def Careful (s : ι → Buffer) : Op ι → Prop
  | .call c => BufferQueue.Pre s c
  | .shrink i r => ShrinkSafe (s i) r

instance (b : Buffer) (r : Nat) : Decidable (ShrinkSafe b r) := by unfold ShrinkSafe; infer_instance
instance (s : ι → Buffer) (o : Op ι) : Decidable (Pre s o) := by
  cases o <;> (dsimp only [Pre]; infer_instance)
instance (s : ι → Buffer) (o : Op ι) : Decidable (Careful s o) := by
  cases o <;> (dsimp only [Careful]; infer_instance)

/-- On byte lists Shrink does nothing. -/
def spec (q : ι → List UInt8) : Op ι → (ι → List UInt8)
  | .call c => BufferQueue.spec q c
  | .shrink _ _ => q

/-! The read index never passes the write index, whatever a Shrink did. -/

structure Ordered (b : Buffer) : Prop where
  reader_le : b.readerIndex ≤ b.writerIndex
  cheap_le : cheapPrepend ≤ b.writerIndex

theorem Ordered.wf {b : Buffer} (h : Ordered b) (hw : b.writerIndex ≤ b.vBuffer.length) : b.WF :=
  ⟨h.reader_le,hw,h.cheap_le⟩
theorem ordered_new : Ordered .new := ⟨le_rfl,le_rfl⟩
theorem Ordered.readableBytes_eq {b : Buffer} (h : Ordered b) : b.readableBytes = b.writerIndex - b.readerIndex :=
  sizeSub_of_le h.reader_le

theorem copyTo_eq {v data v' : List UInt8} {i : Nat} (h : copyTo v i data = .ok v') :
    i + data.length ≤ v.length ∧ v' = v.take i ++ data ++ v.drop (i + data.length) := by
  obtain ⟨u,hle,hv⟩ := (bind_ok_iff _ _ _).mp h
  cases hv
  exact ⟨(ensure_ok_iff _ _ _).mp hle,rfl⟩

theorem peek_eq {b : Buffer} {n : Nat} {bytes : List UInt8} (h : b.peek n = .ok bytes) :
    b.readerIndex + n ≤ b.vBuffer.length ∧ bytes = (b.vBuffer.drop b.readerIndex).take n := by
  obtain ⟨u,hle,hv⟩ := (bind_ok_iff _ _ _).mp h
  cases hv
  exact ⟨(ensure_ok_iff _ _ _).mp hle,rfl⟩

theorem store_indices {b b' : Buffer} {data : List UInt8} (h : b.store data = .ok b') :
    b.writerIndex + data.length ≤ b.vBuffer.length ∧ b'.vBuffer.length = b.vBuffer.length ∧
      b'.readerIndex = b.readerIndex ∧ b'.writerIndex = b.writerIndex := by
  obtain ⟨v,hv,hb⟩ := (bind_ok_iff _ _ _).mp h
  cases hb
  obtain ⟨hle,rfl⟩ := copyTo_eq hv
  refine ⟨hle,?_,rfl,rfl⟩
  simp only [List.length_append,List.length_take,List.length_drop]
  omega

theorem makeSpace_ordered {b b' : Buffer} {n : Nat} (ho : Ordered b) (h : b.makeSpace n = .ok b') : Ordered b' := by
  unfold Buffer.makeSpace at h
  split at h
  · cases h
    exact ⟨ho.reader_le,ho.cheap_le⟩
  · obtain ⟨u,-,h⟩ := (bind_ok_iff _ _ _).mp h
    obtain ⟨v,-,h⟩ := (bind_ok_iff _ _ _).mp h
    obtain ⟨u',-,h⟩ := (bind_ok_iff _ _ _).mp h
    cases h
    exact ⟨Nat.le_add_right _ _,Nat.le_add_right _ _⟩

theorem ensureWritableBytes_ordered {b b' : Buffer} {n : Nat} (ho : Ordered b)
    (h : b.ensureWritableBytes n = .ok b') : Ordered b' := by
  by_cases hn : b.writeableBytes < n
  · simp only [Buffer.ensureWritableBytes,hn,if_true] at h
    obtain ⟨c,hc,h⟩ := (bind_ok_iff _ _ _).mp h
    obtain ⟨u,-,h⟩ := (bind_ok_iff _ _ _).mp h
    cases h
    exact makeSpace_ordered ho hc
  · simp only [Buffer.ensureWritableBytes,hn,if_false,ok_bind] at h
    obtain ⟨u,-,h⟩ := (bind_ok_iff _ _ _).mp h
    cases h
    exact ho

theorem append_ordered {b b' : Buffer} {data : List UInt8} (ho : Ordered b) (h : b.append data = .ok b') :
    Ordered b' := by
  obtain ⟨b₁,he,h⟩ := (bind_ok_iff _ _ _).mp h
  obtain ⟨b₂,hs,h⟩ := (bind_ok_iff _ _ _).mp h
  cases h
  obtain ⟨hr,hc⟩ := ensureWritableBytes_ordered ho he
  obtain ⟨-,-,hri,hwi⟩ := store_indices hs
  refine ⟨?_,?_⟩
  · change b₂.readerIndex ≤ b₂.writerIndex + data.length
    omega
  · change cheapPrepend ≤ b₂.writerIndex + data.length
    omega

theorem retrieve_ordered {b b' : Buffer} {n : Nat} (ho : Ordered b) (h : b.retrieve n = .ok b') : Ordered b' := by
  obtain ⟨u,hn,h⟩ := (bind_ok_iff _ _ _).mp h
  cases h
  have hle := (ensure_ok_iff _ _ _).mp hn
  rw [ho.readableBytes_eq] at hle
  have hr := ho.reader_le
  refine ⟨?_,ho.cheap_le⟩
  change b.readerIndex + n ≤ b.writerIndex
  omega

theorem readFd_ordered {b : Buffer} {saved : Int} {answer : Except Int (List UInt8)} {r : Buffer × Int × Int}
    (ho : Ordered b) (h : b.readFd saved answer = .ok r) : Ordered r.1 := by
  obtain ⟨hr,hc⟩ := ho
  cases answer with
  | error errno =>
    cases h
    exact ⟨hr,hc⟩
  | ok data =>
    obtain ⟨b₁,hs,h⟩ := (bind_ok_iff _ _ _).mp h
    obtain ⟨hfit,hlen,hri,hwi⟩ := store_indices hs
    split at h
    · cases h
      refine ⟨?_,?_⟩
      · change b₁.readerIndex ≤ b₁.writerIndex + data.length
        omega
      · change cheapPrepend ≤ b₁.writerIndex + data.length
        omega
    · obtain ⟨b₂,ha,h⟩ := (bind_ok_iff _ _ _).mp h
      cases h
      refine append_ordered ⟨?_,?_⟩ ha
      · change b₁.readerIndex ≤ b₁.vBuffer.length
        omega
      · change cheapPrepend ≤ b₁.vBuffer.length
        omega

/-- Shrink changes the vector only; the copy has to fit both vectors. -/
theorem shrink_eq {b b' : Buffer} {r : Nat} (h : b.shrink r = .ok b') :
    b.readerIndex + b.readableBytes ≤ b.vBuffer.length ∧
      cheapPrepend + b.readableBytes ≤ (cheapPrepend + b.readableBytes + r) % 2 ^ 64 ∧
      b' = ⟨List.replicate cheapPrepend 0 ++ b.readable ++
        List.replicate ((cheapPrepend + b.readableBytes + r) % 2 ^ 64 - (cheapPrepend + b.readableBytes)) 0,
        b.readerIndex,b.writerIndex⟩ := by
  obtain ⟨content,hp,h⟩ := (bind_ok_iff _ _ _).mp h
  obtain ⟨v,hv,h⟩ := (bind_ok_iff _ _ _).mp h
  cases h
  obtain ⟨hfrom,rfl⟩ := peek_eq hp
  obtain ⟨hto,rfl⟩ := copyTo_eq hv
  have hlen : ((b.vBuffer.drop b.readerIndex).take b.readableBytes).length = b.readableBytes := by
    rw [List.length_take,List.length_drop]
    omega
  rw [hlen,List.length_replicate] at hto
  refine ⟨hfrom,hto,?_⟩
  rw [hlen,List.take_replicate,List.drop_replicate,Nat.min_eq_left (by omega)]
  rfl

theorem shrink_ordered {b b' : Buffer} {r : Nat} (ho : Ordered b) (h : b.shrink r = .ok b') : Ordered b' := by
  obtain ⟨-,-,rfl⟩ := shrink_eq h
  exact ⟨ho.reader_le,ho.cheap_le⟩

theorem on_ordered {s t : ι → Buffer} {i : ι} {f : Buffer → Except Halt Buffer} (hs : ∀ j, Ordered (s j))
    (h : BufferQueue.on s i f = .ok t) (hf : ∀ b, f (s i) = .ok b → Ordered b) : ∀ j, Ordered (t j) := by
  obtain ⟨b,hb,h⟩ := (bind_ok_iff _ _ _).mp h
  cases h
  intro j
  rw [Function.update_apply]
  split
  · exact hf b hb
  · exact hs j

theorem step_ordered {s t : ι → Buffer} {o : Op ι} (hs : ∀ i, Ordered (s i)) (h : step s o = .ok t) :
    ∀ i, Ordered (t i) := by
  cases o with
  | shrink i r => exact on_ordered (f := (·.shrink r)) hs h fun b hb => shrink_ordered (hs i) hb
  | call c =>
    cases c with
    | append i data => exact on_ordered (f := (·.append data)) hs h fun b hb => append_ordered (hs i) hb
    | appendInt8 i v => exact on_ordered (f := (·.appendInt8 v)) hs h fun b hb => append_ordered (hs i) hb
    | appendInt16 i v => exact on_ordered (f := (·.appendInt16 v)) hs h fun b hb => append_ordered (hs i) hb
    | appendInt32 i v => exact on_ordered (f := (·.appendInt32 v)) hs h fun b hb => append_ordered (hs i) hb
    | prepend i data =>
      refine on_ordered (f := (·.prepend data)) hs h fun b hb => ?_
      obtain ⟨u,-,hb⟩ := (bind_ok_iff _ _ _).mp hb
      obtain ⟨v,-,hb⟩ := (bind_ok_iff _ _ _).mp hb
      cases hb
      exact ⟨(Nat.sub_le _ _).trans (hs i).reader_le,(hs i).cheap_le⟩
    | retrieve i n => exact on_ordered (f := (·.retrieve n)) hs h fun b hb => retrieve_ordered (hs i) hb
    | retrieveUntil i n =>
      refine on_ordered (f := fun b => b.retrieveUntil (b.readerIndex + n)) hs h fun b hb => ?_
      obtain ⟨u,-,hb⟩ := (bind_ok_iff _ _ _).mp hb
      obtain ⟨u',-,hb⟩ := (bind_ok_iff _ _ _).mp hb
      exact retrieve_ordered (hs i) hb
    | retrieveAll i =>
      refine on_ordered (f := fun b => .ok b.retrieveAll) hs h fun b hb => ?_
      cases hb
      exact ⟨le_rfl,le_rfl⟩
    | retrieveAsString i =>
      refine on_ordered (f := fun b => Prod.fst <$> b.retrieveAsString) hs h fun b hb => ?_
      obtain ⟨p,hp,rfl⟩ := (map_ok_iff _ _ _).mp hb
      obtain ⟨str,-,hp⟩ := (bind_ok_iff _ _ _).mp hp
      cases hp
      exact ⟨le_rfl,le_rfl⟩
    | ensureWritableBytes i n => exact on_ordered (f := (·.ensureWritableBytes n)) hs h fun b hb => ensureWritableBytes_ordered (hs i) hb
    | hasWritted i data =>
      refine on_ordered (f := fun b => (Buffer.hasWritted · data.length) <$> b.store data) hs h fun b hb => ?_
      obtain ⟨b₁,hst,rfl⟩ := (map_ok_iff _ _ _).mp hb
      obtain ⟨-,-,hri,hwi⟩ := store_indices hst
      obtain ⟨hr,hc⟩ := hs i
      refine ⟨?_,?_⟩
      · change b₁.readerIndex ≤ b₁.writerIndex + data.length
        omega
      · change cheapPrepend ≤ b₁.writerIndex + data.length
        omega
    | readFd i saved answer =>
      refine on_ordered (f := fun b => Prod.fst <$> b.readFd saved answer) hs h fun b hb => ?_
      obtain ⟨p,hp,rfl⟩ := (map_ok_iff _ _ _).mp hb
      exact readFd_ordered (hs i) hp
    | swap i j =>
      cases h
      intro k
      simp only [BufferQueue.exchange,Function.update_apply]
      split
      · exact hs i
      · split
        · exact hs j
        · exact hs k

/-- A buffer that some history leaves behind, whatever its Shrinks did; an index
is at most the size of a vector. -/
def Left (b : Buffer) : Prop :=
  b.writerIndex < 2 ^ 63 ∧ ∃ (ops : List (Op Nat)) (bufs : Nat → Buffer) (i : Nat),
    machine.Along Pre (fun _ => Buffer.new) ops ∧ machine.run (fun _ => .new) ops = .ok bufs ∧ bufs i = b

theorem Left.ordered {b : Buffer} (h : Left b) : Ordered b := by
  obtain ⟨-,ops,bufs,i,-,hr,rfl⟩ := h
  exact machine.run_invariant (P := fun s => ∀ j, Ordered (s j)) (fun _ _ _ hs ht => step_ordered hs ht)
    (fun _ => ordered_new) hr i

/-! What a safe Shrink does. -/

/-- A word that stays itself when zeros are put before it and its end is cut is all zero. -/
theorem all_zero_of_shift {bs : List UInt8} {m : Nat} (hm : 0 < m)
    (h : (List.replicate m 0 ++ bs).take bs.length = bs) : ∀ x ∈ bs, x = 0 := by
  have hget : ∀ i, (hi : i < bs.length) → bs[i] = 0 := by
    intro i
    induction i using Nat.strong_induction_on with
    | _ i ih =>
      intro hi
      have hsame : (List.replicate m 0 ++ bs)[i]? = bs[i]? := by
        rw [← List.getElem?_take_of_lt hi,h]
      rw [List.getElem?_eq_getElem hi,List.getElem?_append] at hsame
      split at hsame
      · rename_i hlt
        rw [List.getElem?_replicate_of_lt (by simpa using hlt)] at hsame
        exact (Option.some.inj hsame).symm
      · rename_i hge
        rw [List.length_replicate] at hge hsame
        rw [List.getElem?_eq_getElem (by omega)] at hsame
        rw [← Option.some.inj hsame]
        exact ih (i - m) (by omega) (by omega)
  intro x hx
  obtain ⟨i,hi,rfl⟩ := List.mem_iff_getElem.mp hx
  exact hget i hi

theorem shift_of_all_zero {bs : List UInt8} {m : Nat} (h : ∀ x ∈ bs, x = 0) :
    (List.replicate m 0 ++ bs).take bs.length = bs := by
  have hz : bs = List.replicate bs.length 0 := List.eq_replicate_of_mem h
  generalize bs.length = n at hz
  subst hz
  rw [← List.replicate_add,List.take_replicate,Nat.min_eq_left (Nat.le_add_left _ _)]

/-- The readable bytes after a Shrink: the contents seen through the old read index. -/
theorem readable_shrunk {b : Buffer} (h : b.WF) (hle : b.readerIndex ≤ cheapPrepend) (n : Nat) :
    Buffer.readable ⟨List.replicate cheapPrepend 0 ++ b.readable ++ List.replicate n 0,b.readerIndex,b.writerIndex⟩ =
      (List.replicate (cheapPrepend - b.readerIndex) 0 ++ b.readable).take b.readable.length := by
  have hlen := h.readable_length
  change List.take b.readableBytes (List.drop b.readerIndex _) = _
  rw [List.append_assoc,List.drop_append,List.drop_replicate,List.length_replicate,
    Nat.sub_eq_zero_of_le hle,List.drop_zero,← List.append_assoc,List.take_append_of_le_length,hlen]
  rw [List.length_append,hlen]
  exact Nat.le_add_left _ _

/-- A safe Shrink keeps the contents and makes the room. -/
theorem shrink_ok {b : Buffer} {r : Nat} (ho : Ordered b) (h : ShrinkSafe b r) :
    ∃ b', b.shrink r = .ok b' ∧ b'.WF ∧ b'.readable = b.readable ∧ r ≤ b'.writeableBytes := by
  obtain ⟨hw,hsize,hpos⟩ := h
  have hwf := ho.wf hw
  have hlen := hwf.readable_length
  have hb := ho.readableBytes_eq
  have hr := ho.reader_le
  have hle : b.readerIndex ≤ cheapPrepend := by
    rcases hpos with h | h
    · exact h.le
    · exact h.1.le
  have hfit : cheapPrepend + b.readable.length ≤
      (List.replicate (cheapPrepend + b.readableBytes + r) (0 : UInt8)).length := by
    rw [List.length_replicate,hlen]
    omega
  let b' : Buffer := ⟨List.replicate cheapPrepend 0 ++ b.readable ++ List.replicate r 0,b.readerIndex,b.writerIndex⟩
  have hvlen : b'.vBuffer.length = cheapPrepend + b.readableBytes + r := by
    simp only [b',List.length_append,List.length_replicate,hlen]
  have hwf' : b'.WF := by
    refine ⟨hr,?_,ho.cheap_le⟩
    rw [hvlen]
    change b.writerIndex ≤ _
    omega
  refine ⟨b',?_,hwf',?_,?_⟩
  · have htake : b.readable.take b.readableBytes = b.readable := List.take_of_length_le hlen.le
    simp only [Buffer.shrink,Buffer.peek_ok hwf le_rfl,ok_bind,Nat.mod_eq_of_lt hsize,htake,Buffer.copyTo_ok hfit]
    rw [hlen,List.take_replicate,List.drop_replicate,Nat.min_eq_left (by omega),Nat.add_sub_cancel_left]
  · refine (readable_shrunk hwf hle r).trans ?_
    rcases hpos with h | h
    · rw [h,Nat.sub_self]
      exact List.take_length
    · exact shift_of_all_zero h.2
  · rw [hwf'.writeableBytes_eq,hvlen]
    change r ≤ cheapPrepend + b.readableBytes + r - b.writerIndex
    omega

/-- Only a safe Shrink keeps the contents and makes the room. -/
theorem shrinkSafe_of_kept {b b' : Buffer} {r : Nat} (ho : Ordered b) (h : b.shrink r = .ok b')
    (hread : b'.readable = b.readable) (hw : b'.writerIndex ≤ b'.vBuffer.length) (hroom : r ≤ b'.writeableBytes) :
    ShrinkSafe b r := by
  have ho' := shrink_ordered ho h
  obtain ⟨hfrom,hto,rfl⟩ := shrink_eq h
  have hr := ho.reader_le
  have hb := ho.readableBytes_eq
  have hfit : b.writerIndex ≤ b.vBuffer.length := by omega
  have hwf := ho.wf hfit
  have hlen := hwf.readable_length
  rw [(ho'.wf hw).writeableBytes_eq] at hroom
  simp only [List.length_append,List.length_replicate,hlen] at hroom hw
  -- the room is what lies behind the old write index, so the read index is at most the initial one
  have hle : b.readerIndex ≤ cheapPrepend := by omega
  refine ⟨hfit,by omega,?_⟩
  rcases hle.lt_or_eq with hlt | heq
  · refine .inr ⟨hlt,all_zero_of_shift (Nat.sub_pos_of_lt hlt) ?_⟩
    exact (readable_shrunk hwf hle _).symm.trans hread
  · exact .inl heq

/-! Runs. -/

theorem step_ok {s : ι → Buffer} (hs : ∀ i, (s i).WF) {o : Op ι} (ho : Careful s o) :
    ∃ t, step s o = .ok t ∧ (∀ i, (t i).WF) ∧
      (fun i => (t i).readable) = spec (fun i => (s i).readable) o := by
  cases o with
  | call c => exact BufferQueue.step_ok hs ho
  | shrink i r =>
    obtain ⟨b,he,hwf,hread,-⟩ := shrink_ok ⟨(hs i).reader_le,(hs i).cheap_le⟩ ho
    obtain ⟨t,ht,hw,hr⟩ := BufferQueue.on_ok hs i (·.shrink r) ⟨b,he,hwf,hread⟩
    exact ⟨t,ht,hw,hr.trans (Function.update_eq_self i _)⟩

/-- Careful histories run to their end as the byte lists do. -/
theorem run_ok {s : ι → Buffer} (hs : ∀ i, (s i).WF) {ops : List (Op ι)} (h : machine.Along Careful s ops) :
    ∃ t : ι → Buffer, machine.run s ops = .ok t ∧ (∀ i, (t i).WF) ∧
      (fun i => (t i).readable) = ops.foldl spec fun i => (s i).readable :=
  machine.run_refines (fun s i => (s i).readable) spec (P := fun s => ∀ i, (s i).WF)
    (fun _ _ hs ha => step_ok hs ha) hs h

/-- What the buffer must be after Shrink: the same bytes, in order, with the
reserve behind them, and no later operation can tell the difference. -/
structure Kept (b : Buffer) (reserve : Nat) (b' : Buffer) : Prop where
  readable : b'.readable = b.readable
  reader_le : b'.readerIndex ≤ b'.writerIndex
  writer_le : b'.writerIndex ≤ b'.vBuffer.length
  writeable : reserve ≤ b'.writeableBytes
  later : ∀ ops : List (Op Unit), machine.Along Careful (fun _ => b) ops → machine.Along Careful (fun _ => b') ops →
    ∃ s s', machine.run (fun _ => b) ops = .ok s ∧ machine.run (fun _ => b') ops = .ok s' ∧
      (s' ()).readable = (s ()).readable

theorem shrink_kept_iff {b : Buffer} (ho : Ordered b) (r : Nat) :
    (∃ b', b.shrink r = .ok b' ∧ Kept b r b') ↔ ShrinkSafe b r := by
  constructor
  · rintro ⟨b',he,hk⟩
    exact shrinkSafe_of_kept ho he hk.readable hk.writer_le hk.writeable
  · intro h
    obtain ⟨b',he,hwf,hread,hroom⟩ := shrink_ok ho h
    refine ⟨b',he,hread,hwf.reader_le,hwf.writer_le,hroom,?_⟩
    intro ops hops hops'
    obtain ⟨s,hs,-,hq⟩ := run_ok (fun _ => ho.wf h.1) hops
    obtain ⟨s',hs',-,hq'⟩ := run_ok (fun _ => hwf) hops'
    refine ⟨s,s',hs,hs',?_⟩
    rw [hread] at hq'
    exact congrFun (hq'.trans hq.symm) ()

/-- Shrink keeps the queue, and every later operation with it, exactly where it is
safe: at every buffer some history leaves, and all along a history whose Shrinks
are safe, which runs to its end as if they were not there. -/
theorem shrink_keeps_queue_iff :
    (∀ b, Left b → ∀ r, (∃ b', b.shrink r = .ok b' ∧ Kept b r b') ↔ ShrinkSafe b r) ∧
    ∀ ops : List (Op ι), machine.Along Careful (fun _ => Buffer.new) ops →
      ∃ bufs : ι → Buffer, machine.run (fun _ => .new) ops = .ok bufs ∧ ∀ i,
        (bufs i).readable = ops.foldl spec (fun _ => []) i ∧
        (bufs i).readerIndex ≤ (bufs i).writerIndex ∧ (bufs i).writerIndex ≤ (bufs i).vBuffer.length := by
  refine ⟨fun b hb r => shrink_kept_iff hb.ordered r,?_⟩
  intro ops hops
  obtain ⟨bufs,hr,hwf,hq⟩ := run_ok (fun _ => Buffer.new_wf) hops
  exact ⟨bufs,hr,fun i => ⟨congrFun hq i,(hwf i).reader_le,(hwf i).writer_le⟩⟩

/-- A shrink of a buffer that was only appended to, and of one with a zero byte
prepended to zeros, are safe; the history runs on through both. -/
theorem shrink_keeps_queue_iff_safe :
    (∃ b, Left b ∧ b.readable = [1,2,3] ∧ ∃ b', b.shrink 5 = .ok b' ∧ Kept b 5 b') ∧
      ∃ bufs : Unit → Buffer, machine.run (fun _ => .new) [.call (.append () [0,0]),.call (.prepend () [0]),
        .shrink () 1,.call (.append () [7]),.call (.retrieve () 1),.shrink () 9] = .ok bufs ∧ (bufs ()).readable = [0,0,7] := by
  constructor
  · obtain ⟨bufs,hr,hb⟩ := machine.exists_run_eq [.call (.append 0 [1,2,3])]
      (fun s => ((s 0).readable,decide ((s 0).writerIndex < 2 ^ 63),decide (ShrinkSafe (s 0) 5)))
      (s := fun _ : Nat => Buffer.new) (b := ([1,2,3],true,true)) (by decide +kernel)
    obtain ⟨hread,hw,hsafe⟩ := Prod.ext_iff.mp hb |>.imp_right Prod.ext_iff.mp
    have hleft : Left (bufs 0) := ⟨of_decide_eq_true hw,_,bufs,0,by decide +kernel,hr,rfl⟩
    exact ⟨bufs 0,hleft,hread,((@shrink_keeps_queue_iff Unit _).1 _ hleft 5).mpr (of_decide_eq_true hsafe)⟩
  · obtain ⟨bufs,hr,hall⟩ := shrink_keeps_queue_iff.2 [.call (.append () [0,0]),.call (.prepend () [0]),
      .shrink () 1,.call (.append () [7]),.call (.retrieve () 1),.shrink () 9] (by decide +kernel)
    exact ⟨bufs,hr,(hall ()).1.trans (by decide +kernel)⟩

/-- After four of eight bytes were retrieved the read index is 12: a Shrink to a
reserve of 8 leaves four zeros to read and room for four bytes. -/
theorem shrink_loses_bytes :
    ∃ b b', Left b ∧ b.readerIndex = 12 ∧ b.readable = [5,6,7,8] ∧ b.shrink 8 = .ok b' ∧
      b'.readable = [0,0,0,0] ∧ b'.writeableBytes = 4 ∧ ¬ ∃ b', b.shrink 8 = .ok b' ∧ Kept b 8 b' := by
  obtain ⟨bufs,hr,hb⟩ := machine.exists_run_eq [.call (.append 0 [1,2,3,4,5,6,7,8]),.call (.retrieve 0 4)]
    (fun s => (s 0,decide ((s 0).writerIndex < 2 ^ 63)))
    (s := fun _ : Nat => Buffer.new)
    (b := (⟨List.replicate 8 0 ++ [1,2,3,4,5,6,7,8] ++ List.replicate 1016 0,12,16⟩,true)) (by decide +kernel)
  obtain ⟨hbuf,hw⟩ := Prod.ext_iff.mp hb
  have hleft : Left (bufs 0) := ⟨of_decide_eq_true hw,_,bufs,0,by decide +kernel,hr,rfl⟩
  have hsame : bufs 0 = ⟨List.replicate 8 0 ++ [1,2,3,4,5,6,7,8] ++ List.replicate 1016 0,12,16⟩ := hbuf
  rw [hsame] at hleft
  refine ⟨_,⟨List.replicate 8 0 ++ [5,6,7,8] ++ List.replicate 8 0,12,16⟩,hleft,rfl,
    by decide +kernel,by decide +kernel,by decide +kernel,by decide +kernel,?_⟩
  rw [shrink_kept_iff hleft.ordered]
  decide +kernel

end LinuxServer.Reactor.BufferShrink
