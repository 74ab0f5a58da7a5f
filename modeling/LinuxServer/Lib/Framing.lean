import Mathlib

/-! Incremental decoding of a stream of frames. A decoder looks at the bytes it
has; when its answers are final, cutting the stream into chunks changes nothing. -/
namespace LinuxServer.Lib
variable {α μ ε : Type}

/-- What a decoder makes of the bytes at hand. -/
inductive Verdict (μ ε : Type) where
  | wait
  | value (m : μ) (size : Nat)
  | fail (e : ε)
  deriving DecidableEq,Repr

/-- Every answer but waiting is final, and a value takes some of the bytes at hand. -/
structure Decoder (α μ ε : Type) where
  look : List α → Verdict μ ε
  look_nil : look [] = .wait
  size_pos : ∀ {s m n}, look s = .value m n → 0 < n
  size_le : ∀ {s m n}, look s = .value m n → n ≤ s.length
  value_append : ∀ {s m n} t, look s = .value m n → look (s ++ t) = .value m n
  fail_append : ∀ {s e} t, look s = .fail e → look (s ++ t) = .fail e

/-- The values taken out, the error met if any, and what is left. -/
@[ext] structure Drained (α μ ε : Type) where
  values : List μ
  error : Option ε
  rest : List α
  deriving DecidableEq

namespace Decoder
variable (d : Decoder α μ ε)

/-- Take values out until the decoder waits or fails. -/
def drain (s : List α) : Drained α μ ε :=
  match _h : d.look s with
  | .wait => ⟨[],none,s⟩
  | .fail e => ⟨[],some e,s⟩
  | .value m n =>
    let r := drain (s.drop n)
    ⟨m :: r.values,r.error,r.rest⟩
termination_by s.length
decreasing_by
  have := d.size_pos _h
  have := d.size_le _h
  rw [List.length_drop]
  omega

theorem drain_wait {s : List α} (h : d.look s = .wait) : d.drain s = ⟨[],none,s⟩ := by
  rw [drain]
  split <;> simp_all
theorem drain_fail {s : List α} {e : ε} (h : d.look s = .fail e) : d.drain s = ⟨[],some e,s⟩ := by
  rw [drain]
  split <;> simp_all
theorem drain_value {s : List α} {m : μ} {n : Nat} (h : d.look s = .value m n) :
    d.drain s = ⟨m :: (d.drain (s.drop n)).values,(d.drain (s.drop n)).error,(d.drain (s.drop n)).rest⟩ := by
  rw [drain]
  split <;> simp_all

/-- Draining a longer stream continues from what the shorter one left. -/
theorem drain_append (s t : List α) :
    d.drain (s ++ t) = ⟨(d.drain s).values ++ (d.drain ((d.drain s).rest ++ t)).values,
      (d.drain ((d.drain s).rest ++ t)).error,(d.drain ((d.drain s).rest ++ t)).rest⟩ := by
  induction s using drain.induct d with
  | case1 s h => rw [d.drain_wait h]; rfl
  | case2 s e h => rw [d.drain_fail h]; rfl
  | case3 s m n h ih =>
    have hn := d.size_le h
    rw [d.drain_value (d.value_append t h),d.drain_value h,List.drop_append_of_le_length hn,ih]
    rfl

/-- What is left yields no value, and fails exactly as reported. -/
theorem drain_rest (s : List α) :
    d.drain (d.drain s).rest = ⟨[],(d.drain s).error,(d.drain s).rest⟩ := by
  induction s using drain.induct d with
  | case1 s h => rw [d.drain_wait h,d.drain_wait h]
  | case2 s e h => rw [d.drain_fail h,d.drain_fail h]
  | case3 s m n h ih => rw [d.drain_value h,ih]

private theorem look_of_error {s : List α} {e : ε} (h : (d.drain s).error = some e) :
    d.look (d.drain s).rest = .fail e := by
  induction s using drain.induct d with
  | case1 s hl => rw [d.drain_wait hl] at h; cases h
  | case2 s e' hl =>
    rw [d.drain_fail hl] at h ⊢
    cases h
    exact hl
  | case3 s m n hl ih =>
    rw [d.drain_value hl] at h ⊢
    exact ih h

/-- A failure stays where it is. -/
theorem drain_error_append {s : List α} {e : ε} (t : List α) (h : (d.drain s).error = some e) :
    (d.drain (s ++ t)).error = some e := by
  rw [drain_append,d.drain_fail (d.fail_append t (d.look_of_error h))]

/-! Chunk by chunk. -/

/-- After each chunk, drain all that is there. -/
def feed : List α → List (List α) → List (List μ × Option ε) × List α
  | s, [] => ([],s)
  | s, c :: cs =>
    let r := d.drain (s ++ c)
    let t := feed r.rest cs
    ((r.values,r.error) :: t.1,t.2)

/-- Whatever the cuts, the values and the remainder are those of the whole stream. -/
theorem feed_values (s : List α) (cs : List (List α)) (hs : d.drain s = ⟨[],(d.drain s).error,s⟩) :
    (d.feed s cs).1.flatMap Prod.fst = (d.drain (s ++ cs.flatten)).values ∧
      (d.feed s cs).2 = (d.drain (s ++ cs.flatten)).rest := by
  induction cs generalizing s with
  | nil =>
    rw [feed,List.flatten_nil,List.append_nil,hs]
    exact ⟨rfl,rfl⟩
  | cons c cs ih =>
    have hr := d.drain_rest (s ++ c)
    have hrest := ih (d.drain (s ++ c)).rest (by rw [hr])
    rw [List.flatten_cons,← List.append_assoc,drain_append d (s ++ c)]
    exact ⟨by rw [feed,List.flatMap_cons,hrest.1],hrest.2⟩

/-- A stream that drains without error reports none in any call. -/
theorem feed_errors (s : List α) (cs : List (List α)) (h : (d.drain (s ++ cs.flatten)).error = none) :
    ∀ call ∈ (d.feed s cs).1, call.2 = none := by
  induction cs generalizing s with
  | nil => exact fun call hc => (by cases hc)
  | cons c cs ih =>
    rw [List.flatten_cons,← List.append_assoc] at h
    have hfirst : (d.drain (s ++ c)).error = none := by
      cases he : (d.drain (s ++ c)).error with
      | none => rfl
      | some e => rw [d.drain_error_append _ he] at h; cases h
    rw [drain_append] at h
    intro call hc
    rcases List.mem_cons.mp hc with rfl | hc
    · exact hfirst
    · exact ih _ h call hc

/-- The first error of the calls is the error of the whole stream. -/
theorem feed_first_error (s : List α) (cs : List (List α)) (hs : d.drain s = ⟨[],none,s⟩) :
    ((d.feed s cs).1.filterMap Prod.snd).head? = (d.drain (s ++ cs.flatten)).error := by
  induction cs generalizing s with
  | nil =>
    rw [feed,List.flatten_nil,List.append_nil,hs]
    rfl
  | cons c cs ih =>
    rw [feed,List.flatten_cons,← List.append_assoc]
    cases he : (d.drain (s ++ c)).error with
    | some e =>
      rw [d.drain_error_append _ he]
      simp
    | none =>
      have hr := d.drain_rest (s ++ c)
      rw [he] at hr
      have hrest := ih _ hr
      rw [drain_append d (s ++ c)]
      simpa using hrest

/-- What was taken out lay in front of what is left, value by value. -/
theorem drain_split (s : List α) : ∃ fs, s = fs.flatten ++ (d.drain s).rest ∧
    List.Forall₂ (fun m f => ∃ t, d.look (f ++ t) = .value m f.length) (d.drain s).values fs := by
  induction s using drain.induct d with
  | case1 s h => exact ⟨[],by rw [d.drain_wait h]; rfl,by rw [d.drain_wait h]; exact .nil⟩
  | case2 s e h => exact ⟨[],by rw [d.drain_fail h]; rfl,by rw [d.drain_fail h]; exact .nil⟩
  | case3 s m n h ih =>
    obtain ⟨fs,hs,hall⟩ := ih
    have hn := d.size_le h
    rw [d.drain_value h]
    refine ⟨s.take n :: fs,?_,.cons ⟨s.drop n,?_⟩ hall⟩
    · rw [List.flatten_cons,List.append_assoc,← hs,List.take_append_drop]
    · rw [List.take_append_drop,h,List.length_take,Nat.min_eq_left hn]

theorem feed_length (s : List α) (cs : List (List α)) : (d.feed s cs).1.length = cs.length := by
  induction cs generalizing s with
  | nil => rfl
  | cons c cs ih => rw [feed,List.length_cons,ih,List.length_cons]
theorem feed_take (s : List α) (cs : List (List α)) (j : Nat) :
    (d.feed s (cs.take j)).1 = (d.feed s cs).1.take j := by
  induction cs generalizing s j with
  | nil => simp [feed]
  | cons c cs ih =>
    cases j with
    | zero => rfl
    | succ j => rw [List.take_succ_cons,feed,feed,List.take_succ_cons,ih]

/-! Streams of whole frames. -/

/-- The frame is read back as the value, to its last byte. -/
def Encodes (m : μ) (f : List α) : Prop := d.look f = .value m f.length

/-- How many leading frames lie wholly in the first bytes of their concatenation. -/
def complete : List (List α) → Nat → Nat
  | [], _ => 0
  | f :: fs, n => if f.length ≤ n then complete fs (n - f.length) + 1 else 0

theorem lt_complete_iff (fs : List (List α)) (n i : Nat) :
    i < complete fs n ↔ i < fs.length ∧ (fs.take (i+1)).flatten.length ≤ n := by
  induction fs generalizing n i with
  | nil => simp [complete]
  | cons f fs ih =>
    rw [complete,List.take_succ_cons,List.flatten_cons,List.length_append,List.length_cons]
    by_cases hf : f.length ≤ n
    · rw [if_pos hf]
      cases i with
      | zero => simpa using hf
      | succ i =>
        have hi := ih (n - f.length) i
        omega
    · rw [if_neg hf]
      omega

variable {d}

/-- A frame waits until its last byte is there. -/
theorem Encodes.look_prefix {m : μ} {f p : List α} (h : d.Encodes m f) (hp : p <+: f)
    (hlt : p.length < f.length) : d.look p = .wait := by
  obtain ⟨t,rfl⟩ := hp
  cases hl : d.look p with
  | wait => rfl
  | fail e =>
    rw [Encodes,d.fail_append t hl] at h
    cases h
  | value m' n =>
    rw [Encodes,d.value_append t hl] at h
    cases h
    exact absurd (d.size_le hl) (not_le.mpr hlt)

/-- Any prefix of a stream of frames drains to the messages whose frames it completes. -/
theorem drain_frames {ms : List μ} {fs : List (List α)} (h : List.Forall₂ d.Encodes ms fs) (n : Nat) :
    d.drain (fs.flatten.take n) = ⟨ms.take (complete fs n),none,
      (fs.flatten.take n).drop (fs.take (complete fs n)).flatten.length⟩ := by
  induction h generalizing n with
  | nil => simpa [complete] using d.drain_wait d.look_nil
  | @cons m f ms fs hf _ ih =>
    by_cases hn : f.length ≤ n
    · have hl : d.look (f ++ fs.flatten.take (n - f.length)) = .value m f.length := d.value_append _ hf
      have hsplit : (f :: fs).flatten.take n = f ++ fs.flatten.take (n - f.length) := by
        rw [List.flatten_cons,List.take_append,List.take_of_length_le hn]
      rw [hsplit,d.drain_value hl,List.drop_left,ih,complete,if_pos hn,List.take_succ_cons,
        List.take_succ_cons,List.flatten_cons,List.length_append,← List.drop_drop,List.drop_left]
    · have hle : n ≤ f.length := by omega
      have hsplit : (f :: fs).flatten.take n = f.take n := by
        rw [List.flatten_cons,List.take_append_of_le_length hle]
      have hw := hf.look_prefix (List.take_prefix n f) (by rw [List.length_take]; omega)
      rw [hsplit,d.drain_wait hw,complete,if_neg hn]
      rfl

theorem complete_all (fs : List (List α)) : complete fs fs.flatten.length = fs.length := by
  induction fs with
  | nil => rfl
  | cons f fs ih =>
    rw [complete,List.flatten_cons,List.length_append,if_pos (Nat.le_add_right _ _),
      Nat.add_sub_cancel_left,ih,List.length_cons]

theorem drain_flatten {ms : List μ} {fs : List (List α)} (h : List.Forall₂ d.Encodes ms fs) :
    d.drain fs.flatten = ⟨ms,none,[]⟩ := by
  have hd := drain_frames h fs.flatten.length
  rwa [complete_all,List.take_length,List.take_length,List.drop_length,← h.length_eq,List.take_length] at hd

private theorem take_flatten (cs : List (List α)) (j : Nat) :
    (cs.take j).flatten = cs.flatten.take (cs.take j).flatten.length := by
  conv_rhs => rw [← List.take_append_drop j cs,List.flatten_append]
  rw [List.take_left' (by rw [List.take_append_drop])]

/-- A stream of whole frames, cut anywhere: after any number of chunks exactly the
messages are out whose frames are complete, no call fails, and nothing is left over. -/
theorem feed_frames {ms : List μ} {fs cs : List (List α)} (h : List.Forall₂ d.Encodes ms fs)
    (hcut : cs.flatten = fs.flatten) :
    (d.feed [] cs).2 = [] ∧ (∀ call ∈ (d.feed [] cs).1, call.2 = none) ∧
      ∀ j, ((d.feed [] cs).1.take j).flatMap Prod.fst =
        ms.take (complete fs (cs.take j).flatten.length) := by
  have hnil : d.drain [] = ⟨[],(d.drain []).error,[]⟩ := by rw [d.drain_wait d.look_nil]
  have hwhole : d.drain ([] ++ cs.flatten) = ⟨ms,none,[]⟩ := by
    have hd := drain_frames h fs.flatten.length
    rw [complete_all,List.take_length,List.take_length,List.drop_length,← h.length_eq,
      List.take_length] at hd
    rw [List.nil_append,hcut,hd]
  refine ⟨?_,?_,fun j => ?_⟩
  · rw [(d.feed_values [] cs hnil).2,hwhole]
  · exact d.feed_errors [] cs (by rw [hwhole])
  · have hd := drain_frames h (cs.take j).flatten.length
    rw [← hcut,← take_flatten] at hd
    rw [← feed_take,(d.feed_values [] (cs.take j) hnil).1,List.nil_append,hd]

end Decoder
end LinuxServer.Lib
