import Mathlib

/-! Machines with labelled partial steps, their runs, and the invariant rules.
A step that does not happen says why; nothing here depends on what it says. -/
namespace LinuxServer.Lib

section Except
variable {ε α β : Type}

@[simp] theorem bind_ok_iff (x : Except ε α) (f : α → Except ε β) (b : β) :
    (x >>= f) = .ok b ↔ ∃ a, x = .ok a ∧ f a = .ok b := by
  cases x with
  | ok a =>
    constructor
    · intro h
      exact ⟨a,rfl,h⟩
    · rintro ⟨_,hx,h⟩
      cases hx
      exact h
  | error e =>
    constructor
    · intro h
      cases h
    · rintro ⟨_,h,-⟩
      cases h

theorem bind_error_iff (x : Except ε α) (f : α → Except ε β) (e : ε) :
    (x >>= f) = .error e ↔ x = .error e ∨ ∃ a, x = .ok a ∧ f a = .error e := by
  cases x with
  | ok a => simp [bind,Except.bind]
  | error e => simp [bind,Except.bind]

theorem map_ok_iff (f : α → β) (x : Except ε α) (b : β) : x.map f = .ok b ↔ ∃ a, x = .ok a ∧ f a = b := by
  cases x with
  | ok a => simp [Except.map]
  | error e => simp [Except.map]

theorem map_error_iff (f : α → β) (x : Except ε α) (e : ε) : x.map f = .error e ↔ x = .error e := by
  cases x with
  | ok a => simp [Except.map]
  | error e => simp [Except.map]

@[simp] theorem ok_bind (a : α) (f : α → Except ε β) : ((.ok a : Except ε α) >>= f) = f a := rfl
@[simp] theorem pure_ok_iff (a b : α) : (pure a : Except ε α) = .ok b ↔ a = b := by
  exact ⟨fun h => by cases h; rfl,fun h => by rw [h]; rfl⟩

/-- Go on when the condition holds, stop with the given reason otherwise. -/
def ensure (e : ε) (p : Prop) [Decidable p] : Except ε Unit :=
  if p then .ok () else .error e

@[simp] theorem ensure_ok_iff (e : ε) (p : Prop) [Decidable p] (u : Unit) :
    ensure e p = .ok u ↔ p := by
  by_cases h : p <;> simp [ensure,h]
@[simp] theorem ensure_of (e : ε) {p : Prop} [Decidable p] (h : p) : ensure e p = .ok () := by
  simp [h]
theorem ensure_error_iff (e e' : ε) (p : Prop) [Decidable p] : ensure e p = .error e' ↔ ¬ p ∧ e = e' := by
  by_cases h : p <;> simp [ensure,h]
theorem ensure_not (e : ε) {p : Prop} [Decidable p] (h : ¬ p) : ensure e p = .error e := by
  simp [ensure,h]

/-- A guarded computation with no other failure than its guard's. -/
theorem guarded_ok_or_error (e : ε) {p : Prop} [Decidable p] {x : Except ε α} (h : p → (∃ a, x = .ok a) ∨ x = .error e) :
    (∃ a, (do ensure e p; x) = .ok a) ∨ (do ensure e p; x) = .error e := by
  by_cases hp : p
  · rw [ensure_of _ hp,ok_bind]
    exact h hp
  · rw [ensure_not _ hp]
    exact .inr rfl

end Except

/-- Why a program step did not complete: it was not its turn, an assertion failed,
memory outside an object or of a dead object was touched, signed arithmetic left
its range, the process aborted, or a bounded loop was cut off. -/
inductive Halt where
  | notEnabled
  | assertion (text : String)
  | outOfBounds
  | freed
  | overflow
  | fatal (text : String)
  | outOfFuel
  deriving DecidableEq,Repr

/-- Start states and, for every label, a partial step. -/
structure Machine (σ α ε : Type) where
  Init : σ → Prop
  step : σ → α → Except ε σ

namespace Machine
variable {σ τ α ε : Type} (m : Machine σ α ε)

/-- Take the labels in order, stopping at the first step that does not happen. -/
def run (s : σ) (as : List α) : Except ε σ := as.foldlM m.step s

/-- Every step of the run meets a condition on the state before it and its label. -/
def Along (C : σ → α → Prop) : σ → List α → Prop
  | _, [] => True
  | s, a :: as => C s a ∧ match m.step s a with
    | .ok t => Along C t as
    | .error _ => True

instance decidableAlong (C : σ → α → Prop) [∀ s a, Decidable (C s a)] :
    ∀ s as, Decidable (m.Along C s as)
  | _, [] => isTrue trivial
  | s, a :: as =>
    have : Decidable (match m.step s a with | .ok t => m.Along C t as | .error _ => True) :=
      match m.step s a with
      | .ok t => decidableAlong C t as
      | .error _ => isTrue trivial
    inferInstanceAs (Decidable (C s a ∧ match m.step s a with
      | .ok t => m.Along C t as
      | .error _ => True))

def Reachable (s : σ) : Prop := ∃ s₀ as, m.Init s₀ ∧ m.run s₀ as = .ok s

@[simp] theorem run_nil (s : σ) : m.run s [] = .ok s := rfl
@[simp] theorem run_cons (s : σ) (a : α) (as : List α) :
    m.run s (a :: as) = m.step s a >>= fun t => m.run t as := rfl
theorem run_append (s : σ) (as bs : List α) :
    m.run s (as ++ bs) = m.run s as >>= fun t => m.run t bs := by
  exact List.foldlM_append ..

theorem along_cons {C : σ → α → Prop} {s t : σ} {a : α} {as : List α}
    (h : m.Along C s (a :: as)) (hs : m.step s a = .ok t) : C s a ∧ m.Along C t as := by
  simpa only [Along,hs] using h
/-- What every step meeting the condition preserves holds at the end of the run. -/
theorem run_along {C : σ → α → Prop} {P : σ → Prop}
    (step : ∀ s a t, P s → C s a → m.step s a = .ok t → P t)
    {s t : σ} {as : List α} (hs : P s) (hc : m.Along C s as) (hr : m.run s as = .ok t) : P t := by
  induction as generalizing s with
  | nil => cases hr; exact hs
  | cons a as ih =>
    obtain ⟨u,hu,hr⟩ := (bind_ok_iff _ _ _).mp hr
    obtain ⟨ha,hc⟩ := m.along_cons hc hu
    exact ih (step s a u hs ha hu) hc hr

theorem run_invariant {P : σ → Prop} (step : ∀ s a t, P s → m.step s a = .ok t → P t)
    {s t : σ} {as : List α} (hs : P s) (hr : m.run s as = .ok t) : P t := by
  induction as generalizing s with
  | nil => cases hr; exact hs
  | cons a as ih =>
    obtain ⟨u,hu,hr⟩ := (bind_ok_iff _ _ _).mp hr
    exact ih (step s a u hs hu) hr

/-- What a run makes of a value that its steps update and do not read. -/
def observe (update : τ → σ → α → σ → τ) : τ → σ → List α → τ
  | h, _, [] => h
  | h, s, a :: as => match m.step s a with
    | .ok t => observe update (update h s a t) t as
    | .error _ => h

/-- The invariant rule for a state together with what was observed on the way to it. -/
theorem run_observe {update : τ → σ → α → σ → τ} {P : τ → σ → Prop}
    (step : ∀ h s a t, P h s → m.step s a = .ok t → P (update h s a t) t)
    {h : τ} {s t : σ} {as : List α} (hs : P h s) (hr : m.run s as = .ok t) : P (m.observe update h s as) t := by
  induction as generalizing h s with
  | nil => cases hr; exact hs
  | cons a as ih =>
    obtain ⟨u,hu,hr⟩ := (bind_ok_iff _ _ _).mp hr
    have hp := ih (step h s a u hs hu) hr
    simpa only [observe,hu] using hp

theorem Reachable.step {m : Machine σ α ε} {s t : σ} {a : α} (h : m.Reachable s)
    (hs : m.step s a = .ok t) : m.Reachable t := by
  obtain ⟨s₀,as,hi,hr⟩ := h
  refine ⟨s₀,as ++ [a],hi,?_⟩
  rw [run_append,hr]
  simpa using hs

theorem Reachable.run {m : Machine σ α ε} {s t : σ} {as : List α} (h : m.Reachable s) (hr : m.run s as = .ok t) :
    m.Reachable t := by
  obtain ⟨s₀,before,hi,hs⟩ := h
  refine ⟨s₀,before ++ as,hi,?_⟩
  rw [run_append,hs]
  exact hr

theorem exists_run {s : σ} {as : List α} (h : (m.run s as).isOk = true) : ∃ t, m.run s as = .ok t := by
  cases hr : m.run s as with
  | error e => rw [hr] at h; cases h
  | ok t => exact ⟨t,rfl⟩

/-- A run that is computed to its end, with what is computed of its state. -/
theorem exists_run_eq {β : Type} (m : Machine σ α ε) {s : σ} (as : List α) (f : σ → β) {b : β}
    (h : (m.run s as).toOption.map f = some b) : ∃ t, m.run s as = .ok t ∧ f t = b := by
  cases hr : m.run s as with
  | error e => rw [hr] at h; cases h
  | ok t =>
    rw [hr] at h
    exact ⟨t,rfl,Option.some.inj h⟩

theorem exists_reachable {β : Type} (m : Machine σ α ε) {s₀ : σ} (hi : m.Init s₀) (as : List α) (f : σ → β) {b : β}
    (h : (m.run s₀ as).toOption.map f = some b) : ∃ s, m.Reachable s ∧ f s = b := by
  obtain ⟨s,hr,hf⟩ := m.exists_run_eq as f h
  exact ⟨s,⟨s₀,as,hi,hr⟩,hf⟩

/-- The invariant rule: it holds at the start and every step preserves it. -/
theorem Reachable.invariant {m : Machine σ α ε} {P : σ → Prop} (init : ∀ s, m.Init s → P s)
    (step : ∀ s a t, P s → m.step s a = .ok t → P t) {s : σ} (h : m.Reachable s) : P s := by
  obtain ⟨s₀,as,hi,hr⟩ := h
  exact m.run_invariant step (init s₀ hi) hr

/-- The same with what is known of every reachable state at hand in the step. -/
theorem Reachable.induction {m : Machine σ α ε} {P : σ → Prop} (init : ∀ s, m.Init s → P s)
    (step : ∀ s a t, m.Reachable s → P s → m.step s a = .ok t → P t) {s : σ} (h : m.Reachable s) : P s := by
  have hboth : m.Reachable s ∧ P s := by
    refine h.invariant (P := fun s => m.Reachable s ∧ P s) ?_ ?_
    · intro s hs
      exact ⟨⟨s,[],hs,rfl⟩,init s hs⟩
    · intro s a t hp hs
      exact ⟨hp.1.step hs,step s a t hp.1 hp.2 hs⟩
  exact hboth.2

/-- The projection rule: a step of the whole is a step of the part or does not show in it. -/
theorem Reachable.component {β : Type} {m : Machine σ α ε} {n : Machine τ β ε} (f : σ → τ) (init : ∀ s, m.Init s → n.Init (f s))
    (step : ∀ s a t, m.step s a = .ok t → f t = f s ∨ ∃ b, n.step (f s) b = .ok (f t)) {s : σ}
    (h : m.Reachable s) : n.Reachable (f s) := by
  refine h.invariant (P := fun s => n.Reachable (f s)) ?_ ?_
  · intro s hs
    exact ⟨f s,[],init s hs,rfl⟩
  · intro s a t hp hs
    rcases step s a t hs with he | ⟨b,hb⟩
    · rw [he]
      exact hp
    · exact hp.step hb

/-- A run whose every step is matched by a function on abstract states computes
that function's fold. The concrete invariant travels along. -/
theorem run_refines {C : σ → α → Prop} {P : σ → Prop} (abs : σ → τ) (spec : τ → α → τ)
    (step : ∀ s a, P s → C s a → ∃ t, m.step s a = .ok t ∧ P t ∧ abs t = spec (abs s) a)
    {s : σ} {as : List α} (hs : P s) (hc : m.Along C s as) :
    ∃ t, m.run s as = .ok t ∧ P t ∧ abs t = as.foldl spec (abs s) := by
  induction as generalizing s with
  | nil => exact ⟨s,rfl,hs,rfl⟩
  | cons a as ih =>
    obtain ⟨u,hu,hp,ha⟩ := step s a hs hc.1
    obtain ⟨t,ht,hq,he⟩ := ih hp (m.along_cons hc hu).2
    refine ⟨t,?_,hq,?_⟩
    · rw [run_cons,hu]
      exact ht
    · rw [he,ha,List.foldl_cons]

/-- Two conditions that agree as long as they hold are the same along a run. -/
theorem along_iff {C D : σ → α → Prop} {P : σ → Prop} (same : ∀ s a, P s → (C s a ↔ D s a))
    (step : ∀ s a t, P s → D s a → m.step s a = .ok t → P t) {s : σ} {as : List α} (hs : P s) :
    m.Along C s as ↔ m.Along D s as := by
  induction as generalizing s with
  | nil => exact Iff.rfl
  | cons a as ih =>
    simp only [Along,same s a hs]
    refine and_congr_right fun hd => ?_
    cases hstep : m.step s a with
    | ok t => exact ih (step s a t hs hd hstep)
    | error e => exact Iff.rfl

/-- When a step fails badly exactly off a condition, so does a run. -/
theorem run_fails_iff {C : σ → α → Prop} {P : σ → Prop} (Bad : ε → Prop)
    (step : ∀ s a t, P s → m.step s a = .ok t → P t)
    (fails : ∀ s a, P s → ((∃ e, m.step s a = .error e ∧ Bad e) ↔ ¬ C s a)) {s : σ} {as : List α} (hs : P s) :
    (∃ e, m.run s as = .error e ∧ Bad e) ↔ ¬ m.Along C s as := by
  induction as generalizing s with
  | nil =>
    constructor
    · rintro ⟨e,he,-⟩
      cases he
    · intro h
      exact absurd trivial h
  | cons a as ih =>
    have hfails := fails s a hs
    rw [run_cons]
    cases hstep : m.step s a with
    | ok t =>
      have hc : C s a := by
        by_contra hc
        obtain ⟨e,he,-⟩ := hfails.mpr hc
        cases hstep.symm.trans he
      rw [ok_bind,ih (step s a t hs hstep)]
      simp only [Along,hstep,hc,true_and]
    | error e =>
      rw [hstep] at hfails
      simp only [Along,hstep,and_true]
      exact hfails

/-- When a step keeps a property exactly on a condition, so does a run. -/
theorem run_keeps_iff {C : σ → α → Prop} {P Q : σ → Prop}
    (step : ∀ s a t, P s → m.step s a = .ok t → P t) (keeps : ∀ s a t, P s → m.step s a = .ok t → (Q t ↔ Q s ∧ C s a))
    {s t : σ} {as : List α} (hs : P s) (hr : m.run s as = .ok t) : Q t ↔ Q s ∧ m.Along C s as := by
  induction as generalizing s with
  | nil =>
    cases hr
    exact (and_iff_left trivial).symm
  | cons a as ih =>
    obtain ⟨u,hu,hr⟩ := (bind_ok_iff _ _ _).mp hr
    rw [ih (step s a u hs hu) hr,keeps s a u hs hu,and_assoc]
    simp only [Along,hu]

/-- A property of the state the run starts from and of every state it comes to. -/
def Always (Q : σ → Prop) : σ → List α → Prop
  | s, [] => Q s
  | s, a :: as => Q s ∧ match m.step s a with
    | .ok t => Always Q t as
    | .error _ => True

theorem always_cons {Q : σ → Prop} {s t : σ} {a : α} {as : List α} (hs : m.step s a = .ok t) :
    m.Always Q s (a :: as) ↔ Q s ∧ m.Always Q t as := by
  simp only [Always,hs]

theorem Always.start {m : Machine σ α ε} {Q : σ → Prop} {s : σ} {as : List α} (h : m.Always Q s as) : Q s := by
  cases as with
  | nil => exact h
  | cons a as => exact h.1

/-- When a step keeps a property exactly on a condition, the property holds all along
a run exactly when every step meets the condition. -/
theorem always_iff {A C : σ → α → Prop} {P Q : σ → Prop} (step : ∀ s a, P s → A s a → ∃ t, m.step s a = .ok t ∧ P t)
    (keeps : ∀ s a t, P s → Q s → A s a → m.step s a = .ok t → (Q t ↔ C s a)) {s : σ} {as : List α}
    (hs : P s) (hq : Q s) (ha : m.Along A s as) : m.Always Q s as ↔ m.Along C s as := by
  induction as generalizing s with
  | nil => exact iff_of_true hq trivial
  | cons a as ih =>
    obtain ⟨t,ht,hp⟩ := step s a hs ha.1
    have hkeep := keeps s a t hs hq ha.1 ht
    have hrest := (m.along_cons ha ht).2
    rw [m.always_cons ht]
    simp only [Along,ht]
    constructor
    · rintro ⟨-,hall⟩
      exact ⟨hkeep.mp hall.start,(ih hp hall.start hrest).mp hall⟩
    · rintro ⟨hc,hall⟩
      exact ⟨hq,(ih hp (hkeep.mpr hc) hrest).mpr hall⟩

/-- The labels of a run without those of its silent steps. -/
def visible (silent : σ → α → Bool) : σ → List α → List α
  | _, [] => []
  | s, a :: as => match m.step s a with
    | .ok t => if silent s a then visible silent t as else a :: visible silent t as
    | .error _ => a :: as

/-- The simulation rule: silent steps do not show in the image of the state, and the other
machine takes the visible ones. -/
theorem run_visible {m : Machine σ α ε} {n : Machine τ α ε} {silent : σ → α → Bool} {f : σ → τ}
    (quiet : ∀ s a t, m.step s a = .ok t → silent s a = true → f t = f s)
    (follow : ∀ s a t, m.step s a = .ok t → silent s a = false → n.step (f s) a = .ok (f t))
    {s t : σ} {as : List α} (hr : m.run s as = .ok t) : n.run (f s) (m.visible silent s as) = .ok (f t) := by
  induction as generalizing s with
  | nil =>
    cases hr
    rfl
  | cons a as ih =>
    obtain ⟨u,hu,hr⟩ := (bind_ok_iff _ _ _).mp hr
    simp only [visible,hu]
    cases hsilent : silent s a with
    | true =>
      rw [if_pos rfl,← quiet s a u hu hsilent]
      exact ih hr
    | false =>
      rw [if_neg Bool.false_ne_true,run_cons,follow s a u hu hsilent,ok_bind]
      exact ih hr

end Machine
end LinuxServer.Lib
