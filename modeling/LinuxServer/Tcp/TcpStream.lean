import LinuxServer.Lib.Machine

/-! Sending all of a buffer over a blocking stream, for any answers of write. -/
namespace LinuxServer.Tcp.TcpStream
open LinuxServer.Lib

/-- EINTR, of errno.h. -/
def eintr : Int := 4

/-- What a call of write for n bytes comes to: it takes some of them, or fails with an errno. -/
inductive Answer (n : Nat) where
  | took (count : Fin (n + 1))
  | failed (nErrno : Int)
  deriving DecidableEq

namespace Answer
variable {n : Nat}

/-- The value that write returns. -/
def nRet : Answer n → Int
  | .took count => count.val
  | .failed _ => -1

/-- The bytes it takes. -/
def count : Answer n → Nat
  | .took count => count.val
  | .failed _ => 0

theorem nRet_pos_iff (a : Answer n) : 0 < a.nRet ↔ 0 < a.count := by
  cases a with
  | took count => exact Int.natCast_pos
  | failed nErrno => exact iff_of_false (by rw [nRet]; decide) (lt_irrefl 0)

theorem toNat_nRet (a : Answer n) : a.nRet.toNat = a.count := by
  cases a with
  | took count => exact Int.toNat_natCast _
  | failed nErrno => rfl

/-- Zero, or a failure that is no interruption. -/
def Final : Answer n → Prop
  | .took count => count.val = 0
  | .failed nErrno => nErrno ≠ eintr

def Interrupted (a : Answer n) : Prop := a = .failed eintr

instance (a : Answer n) : Decidable a.Interrupted := inferInstanceAs (Decidable (_ = _))

theorem final_iff {a : Answer n} (h : a.count = 0) : a.Final ↔ ¬ a.Interrupted := by
  cases a with
  | took count => exact iff_of_true h (by simp [Interrupted])
  | failed nErrno => simp [Final,Interrupted]

end Answer

/-- The arguments: at least that many bytes are behind the pointer, and the length is an int. -/
structure Args where
  pBuf : List UInt8
  nLength : Nat
  readable : nLength ≤ pBuf.length
  isInt : nLength < 2 ^ 31

/-- The result, with what has been put on the wire and the calls of write. -/
structure Sent where
  nWrite : Nat
  wire : List UInt8
  calls : Nat
  deriving DecidableEq

variable (write : Nat → (n : Nat) → Answer n) (args : Args)

/-- The loop. The same bytes are offered in every call. -/
def sendLoop : Nat → Sent → Except Halt Sent
  | 0, s => do
    ensure .outOfFuel (¬ s.nWrite < args.nLength)
    .ok s
  | fuel+1, s =>
    if s.nWrite < args.nLength then
      let answer := write s.calls args.nLength
      let wire := s.wire ++ args.pBuf.take answer.count
      let nRet := answer.nRet
      if 0 < nRet then do
        ensure .overflow (s.nWrite + nRet < 2 ^ 31)
        sendLoop fuel ⟨s.nWrite + nRet.toNat,wire,s.calls + 1⟩
      else if eintr ≠ nRet ∨ 0 = nRet then .ok ⟨s.nWrite,wire,s.calls + 1⟩
      else sendLoop fuel ⟨s.nWrite,wire,s.calls + 1⟩
    else .ok s

/-- Every call but the last takes at least a byte. -/
def sendAll : Except Halt Sent := sendLoop write args args.nLength ⟨0,[],0⟩

/-- The bytes on the wire are the front of the buffer that is reported, an interrupted write is
not the last, and all is sent unless a write returned zero or failed otherwise. -/
structure SentOnce (s : Sent) : Prop where
  wire : s.wire = args.pBuf.take s.nWrite
  bound : s.nWrite ≤ args.nLength
  retried : ∀ k < s.calls, (write k args.nLength).Interrupted → k + 1 < s.calls
  complete : s.nWrite = args.nLength ∨ ∃ k < s.calls, (write k args.nLength).Final

/-- The sum of the first counts. -/
def taken (k : Nat) : Nat := ∑ i ∈ Finset.range k,(write i args.nLength).count

/-- The first so many writes all took something, and less than the length: one more is made. -/
def Made (k : Nat) : Prop := (∀ i < k, 0 < (write i args.nLength).count) ∧ taken write args k < args.nLength

/-- A write is not interrupted, and the bytes it takes from the front of the buffer are those
that it should have taken. -/
def Repeats (k : Nat) : Prop :=
  let count := (write k args.nLength).count
  ¬ (write k args.nLength).Interrupted ∧ taken write args k + count ≤ args.nLength ∧
    args.pBuf.take count = (args.pBuf.drop (taken write args k)).take count

variable {write args}

theorem taken_succ (k : Nat) : taken write args (k + 1) = taken write args k + (write k args.nLength).count :=
  Finset.sum_range_succ ..

theorem taken_mono : Monotone (taken write args) := by
  apply monotone_nat_of_le_succ
  intro k
  rw [taken_succ]
  exact Nat.le_add_right ..

/-! One round of the loop. -/

theorem sendLoop_end {fuel : Nat} {s : Sent} (h : args.nLength ≤ s.nWrite) : sendLoop write args fuel s = .ok s := by
  have hnot : ¬ s.nWrite < args.nLength := h.not_gt
  cases fuel with
  | zero => rw [sendLoop,ensure_of _ hnot,ok_bind]
  | succ fuel => rw [sendLoop,if_neg hnot]

/-- Any answer but a positive count ends the loop: -1 is not EINTR. -/
theorem sendLoop_break {fuel : Nat} {s : Sent} (h : s.nWrite < args.nLength) (hcount : (write s.calls args.nLength).count = 0) :
    sendLoop write args (fuel + 1) s = .ok ⟨s.nWrite,s.wire,s.calls + 1⟩ := by
  have hpos : ¬ 0 < (write s.calls args.nLength).nRet := by
    rw [Answer.nRet_pos_iff,hcount]
    exact lt_irrefl 0
  have hbreak : eintr ≠ (write s.calls args.nLength).nRet ∨ 0 = (write s.calls args.nLength).nRet := by
    left
    rw [eintr]
    omega
  simp only [sendLoop,if_pos h,if_neg hpos,if_pos hbreak,hcount,List.take_zero,List.append_nil]

theorem sendLoop_more {fuel : Nat} {s : Sent} (h : s.nWrite < args.nLength) (hcount : 0 < (write s.calls args.nLength).count) :
    sendLoop write args (fuel + 1) s =
      if s.nWrite + (write s.calls args.nLength).count < 2 ^ 31 then
        sendLoop write args fuel ⟨s.nWrite + (write s.calls args.nLength).count,
          s.wire ++ args.pBuf.take (write s.calls args.nLength).count,s.calls + 1⟩
      else .error .overflow := by
  have hpos := (Answer.nRet_pos_iff _).mpr hcount
  have hcast : (s.nWrite : Int) + (write s.calls args.nLength).nRet < 2 ^ 31 ↔
      s.nWrite + (write s.calls args.nLength).count < 2 ^ 31 := by
    have htoNat := Answer.toNat_nRet (write s.calls args.nLength)
    omega
  simp only [sendLoop,if_pos h,if_pos hpos,Answer.toNat_nRet,hcast]
  split
  · rename_i hint
    rw [ensure_of _ hint,ok_bind]
  · rename_i hover
    rw [ensure_not _ hover]
    rfl

/-- What is on the wire stays there, and the counter does not go back. -/
theorem sendLoop_grows {fuel : Nat} {s s' : Sent} (h : sendLoop write args fuel s = .ok s') :
    s.wire <+: s'.wire ∧ s.nWrite ≤ s'.nWrite := by
  induction fuel generalizing s with
  | zero =>
    obtain ⟨-,-,h⟩ := (bind_ok_iff _ _ _).mp h
    cases h
    exact ⟨List.prefix_refl _,le_rfl⟩
  | succ fuel ih =>
    by_cases hmore : s.nWrite < args.nLength
    · rcases Nat.eq_zero_or_pos (write s.calls args.nLength).count with hcount | hcount
      · rw [sendLoop_break hmore hcount] at h
        cases h
        exact ⟨List.prefix_refl _,le_rfl⟩
      · rw [sendLoop_more hmore hcount] at h
        split at h
        · obtain ⟨hwire,hle⟩ := ih h
          exact ⟨(List.prefix_append ..).trans hwire,(Nat.le_add_right ..).trans hle⟩
        · cases h
    · rw [sendLoop_end (not_lt.mp hmore)] at h
      cases h
      exact ⟨List.prefix_refl _,le_rfl⟩

/-! The whole loop. -/

/-- Where the loop is when all calls so far took the bytes they should have. -/
structure OnTrack (write : Nat → (n : Nat) → Answer n) (args : Args) (s : Sent) : Prop where
  positive : ∀ k < s.calls, 0 < (write k args.nLength).count
  nWrite : s.nWrite = taken write args s.calls
  bound : s.nWrite ≤ args.nLength
  wire : s.wire = args.pBuf.take s.nWrite

theorem not_interrupted_of_pos {k : Nat} (h : 0 < (write k args.nLength).count) : ¬ (write k args.nLength).Interrupted := by
  intro hint
  rw [Answer.Interrupted] at hint
  rw [hint] at h
  exact lt_irrefl 0 h

/-- From a call on, every write that is made takes what it should. -/
def RepeatsFrom (write : Nat → (n : Nat) → Answer n) (args : Args) (c : Nat) : Prop :=
  ∀ k, c ≤ k → Made write args k → Repeats write args k

theorem OnTrack.done {s : Sent} (h : OnTrack write args s) (hend : args.nLength ≤ s.nWrite) :
    SentOnce write args s ∧ RepeatsFrom write args s.calls := by
  refine ⟨⟨h.wire,h.bound,?_,.inl (le_antisymm h.bound hend)⟩,?_⟩
  · intro k hk hint
    exact absurd hint (not_interrupted_of_pos (h.positive k hk))
  · intro k hk hmade
    have hle := @taken_mono write args _ _ hk
    have hlt := hmade.2
    rw [← h.nWrite] at hle
    omega

theorem OnTrack.made {s : Sent} (h : OnTrack write args s) (hmore : s.nWrite < args.nLength) : Made write args s.calls :=
  ⟨h.positive,by rwa [← h.nWrite]⟩

/-- The loop is broken off by a call that took nothing. -/
theorem OnTrack.broken {s : Sent} (h : OnTrack write args s) (hmore : s.nWrite < args.nLength)
    (hcount : (write s.calls args.nLength).count = 0) :
    SentOnce write args ⟨s.nWrite,s.wire,s.calls + 1⟩ ↔ RepeatsFrom write args s.calls := by
  have hrepeats : RepeatsFrom write args s.calls ↔ ¬ (write s.calls args.nLength).Interrupted := by
    constructor
    · intro hfrom
      exact (hfrom s.calls le_rfl (h.made hmore)).1
    · intro hint k hk hmade
      rcases hk.eq_or_lt with rfl | hlt
      · refine ⟨hint,?_,by rw [hcount,List.take_zero,List.take_zero]⟩
        rw [hcount,← h.nWrite]
        exact hmore.le
      · have hpos := hmade.1 s.calls hlt
        rw [hcount] at hpos
        exact absurd hpos (lt_irrefl 0)
  rw [hrepeats]
  constructor
  · intro hsent hint
    exact lt_irrefl _ (hsent.retried s.calls (Nat.lt_succ_self _) hint)
  · intro hint
    refine ⟨h.wire,h.bound,?_,.inr ⟨s.calls,Nat.lt_succ_self _,(Answer.final_iff hcount).mpr hint⟩⟩
    intro k hk hintk
    rcases (Nat.lt_succ_iff.mp hk).eq_or_lt with rfl | hlt
    · exact absurd hintk hint
    · exact absurd hintk (not_interrupted_of_pos (h.positive k hlt))

/-- The state behind a call that took something. -/
def next (write : Nat → (n : Nat) → Answer n) (args : Args) (s : Sent) : Sent :=
  ⟨s.nWrite + (write s.calls args.nLength).count,s.wire ++ args.pBuf.take (write s.calls args.nLength).count,s.calls + 1⟩

theorem OnTrack.next {s : Sent} (h : OnTrack write args s) (hcount : 0 < (write s.calls args.nLength).count)
    (hrepeats : Repeats write args s.calls) : OnTrack write args (next write args s) := by
  obtain ⟨-,hfits,hpiece⟩ := hrepeats
  rw [← h.nWrite] at hfits hpiece
  refine ⟨?_,?_,hfits,?_⟩
  · intro k hk
    rcases (Nat.lt_succ_iff.mp hk).eq_or_lt with rfl | hlt
    · exact hcount
    · exact h.positive k hlt
  · change s.nWrite + _ = taken write args (s.calls + 1)
    rw [taken_succ,← h.nWrite]
  · change s.wire ++ _ = args.pBuf.take (s.nWrite + _)
    rw [h.wire,hpiece,← List.take_add]

/-- What is sent once in the end was sent once in the call. -/
theorem OnTrack.repeats {s s' : Sent} (h : OnTrack write args s) (hcount : 0 < (write s.calls args.nLength).count)
    (hwire : (TcpStream.next write args s).wire <+: s'.wire) (hle : (TcpStream.next write args s).nWrite ≤ s'.nWrite)
    (hsent : SentOnce write args s') : Repeats write args s.calls := by
  have hfits : s.nWrite + (write s.calls args.nLength).count ≤ args.nLength := hle.trans hsent.bound
  have hread := args.readable
  have hle' : s.nWrite + (write s.calls args.nLength).count ≤ s'.nWrite := hle
  refine ⟨not_interrupted_of_pos hcount,by rwa [← h.nWrite],?_⟩
  rw [← h.nWrite]
  have hlen : (TcpStream.next write args s).wire.length = s.nWrite + (write s.calls args.nLength).count := by
    rw [TcpStream.next,h.wire,List.length_append,List.length_take_of_le (by omega),List.length_take_of_le (by omega)]
  have hfront := List.prefix_iff_eq_take.mp hwire
  rw [hlen,hsent.wire,List.take_take,Nat.min_eq_left hle',List.take_add,TcpStream.next,h.wire] at hfront
  exact List.append_cancel_left hfront

theorem repeatsFrom_iff {c : Nat} (hmade : Made write args c) :
    RepeatsFrom write args c ↔ Repeats write args c ∧ RepeatsFrom write args (c + 1) := by
  constructor
  · exact fun h => ⟨h c le_rfl hmade,fun k hk => h k (Nat.le_of_succ_le hk)⟩
  · rintro ⟨hc,hrest⟩ k hk
    rcases hk.eq_or_lt with rfl | hlt
    · exact fun _ => hc
    · exact hrest k hlt

theorem sendLoop_iff {fuel : Nat} {s : Sent} (h : OnTrack write args s) (hfuel : args.nLength - s.nWrite ≤ fuel) :
    (∃ s', sendLoop write args fuel s = .ok s' ∧ SentOnce write args s') ↔ RepeatsFrom write args s.calls := by
  induction fuel generalizing s with
  | zero =>
    have hend : args.nLength ≤ s.nWrite := by omega
    obtain ⟨hsent,hfrom⟩ := h.done hend
    exact iff_of_true ⟨s,sendLoop_end hend,hsent⟩ hfrom
  | succ fuel ih =>
    by_cases hmore : s.nWrite < args.nLength
    swap
    · obtain ⟨hsent,hfrom⟩ := h.done (not_lt.mp hmore)
      exact iff_of_true ⟨s,sendLoop_end (not_lt.mp hmore),hsent⟩ hfrom
    rcases Nat.eq_zero_or_pos (write s.calls args.nLength).count with hcount | hcount
    · rw [sendLoop_break hmore hcount,← h.broken hmore hcount]
      constructor
      · rintro ⟨s',hrun,hsent⟩
        cases hrun
        exact hsent
      · exact fun hsent => ⟨_,rfl,hsent⟩
    · rw [repeatsFrom_iff (h.made hmore),sendLoop_more hmore hcount]
      by_cases hrepeats : Repeats write args s.calls
      · have hint := args.isInt
        have hfits := hrepeats.2.1
        rw [← h.nWrite] at hfits
        rw [if_pos (by omega),and_iff_right hrepeats]
        refine ih (h.next hcount hrepeats) ?_
        change args.nLength - (s.nWrite + _) ≤ fuel
        omega
      · refine iff_of_false ?_ fun hboth => hrepeats hboth.1
        rintro ⟨s',hrun,hsent⟩
        split at hrun
        · obtain ⟨hwire,hle⟩ := sendLoop_grows hrun
          exact hrepeats (h.repeats hcount hwire hle hsent)
        · cases hrun

/-- For every buffer, every length and all answers of write: SendAll sends each byte once exactly
if no write that it makes is interrupted, none takes more than is left, and the bytes that
each takes again from the front are those that are due. -/
theorem sendAll_sentOnce_iff (write : Nat → (n : Nat) → Answer n) (args : Args) :
    (∃ s, sendAll write args = .ok s ∧ SentOnce write args s) ↔ ∀ k, Made write args k → Repeats write args k := by
  have hstart : OnTrack write args ⟨0,[],0⟩ := by
    refine ⟨fun k hk => absurd hk (Nat.not_lt_zero k),?_,Nat.zero_le _,?_⟩
    · rw [taken,Finset.range_zero,Finset.sum_empty]
    · rw [List.take_zero]
  rw [sendAll,sendLoop_iff hstart (Nat.sub_le ..)]
  exact ⟨fun h k => h k (Nat.zero_le k),fun h k _ => h k⟩

/-- Each call takes one byte. -/
def byteByByte : Nat → (n : Nat) → Answer n := fun _ n => .took ⟨min n 1,Nat.lt_succ_of_le (min_le_left n 1)⟩

/-- The first call is interrupted. -/
def interruptedFirst : Nat → (n : Nat) → Answer n
  | 0, _ => .failed eintr
  | _, n => .took ⟨n,Nat.lt_succ_self n⟩

def twoBytes : Args := ⟨[97,98],2,by decide,by decide⟩

/-- Two short writes send the first byte twice, and an interrupted write is not repeated. -/
theorem twoBytes_not_sentOnce :
    (∃ s, sendAll byteByByte twoBytes = .ok s ∧ s.nWrite = 2 ∧ s.wire = [97,97]) ∧
      (∃ s, sendAll interruptedFirst twoBytes = .ok s ∧ s.nWrite = 0 ∧ s.calls = 1) ∧
      (¬ ∃ s, sendAll byteByByte twoBytes = .ok s ∧ SentOnce byteByByte twoBytes s) ∧
      ¬ ∃ s, sendAll interruptedFirst twoBytes = .ok s ∧ SentOnce interruptedFirst twoBytes s := by
  have hshort : sendAll byteByByte twoBytes = .ok ⟨2,[97,97],2⟩ := by decide
  have hintr : sendAll interruptedFirst twoBytes = .ok ⟨0,[],1⟩ := by decide
  refine ⟨⟨_,hshort,rfl,rfl⟩,⟨_,hintr,rfl,rfl⟩,?_,?_⟩
  · rintro ⟨s,hs,hsent⟩
    cases hshort.symm.trans hs
    exact absurd hsent.wire (by decide)
  · rintro ⟨s,hs,hsent⟩
    cases hintr.symm.trans hs
    exact absurd (hsent.retried 0 Nat.one_pos rfl) (by decide)

end LinuxServer.Tcp.TcpStream
