import Mathlib.Data.Option.Basic

/-! # Runs of a labelled transition function

A system is a partial step function `step : σ → α → Option σ`: a label `α` names the party that
moves and the choices it makes, `none` says that the step is not enabled or that the system halts
in it. `Run step ok s t` is a finite run from `s` to `t` whose every step meets `ok`, a condition
on the state before the step and on its label. The rules below are the only inductions over runs
that a development needs: an invariant of the steps is an invariant of the runs, and a run of one
system is a run of another that simulates it.
-/

namespace IntroToOS.Lib
set_option autoImplicit false

variable {σ τ α β : Type*}

/-- `t` is reached from `s` by steps that all meet `ok`. -/
inductive Run (step : σ → α → Option σ) (ok : σ → α → Prop) (s : σ) : σ → Prop
  | refl : Run step ok s s
  | tail {t u : σ} (a : α) : Run step ok s t → ok t a → step t a = some u → Run step ok s u

namespace Run
variable {step : σ → α → Option σ} {ok ok' : σ → α → Prop} {s t u : σ}

theorem single (a : α) (hok : ok s a) (hs : step s a = some t) : Run step ok s t :=
  .tail a .refl hok hs

theorem trans (h : Run step ok s t) (h' : Run step ok t u) : Run step ok s u := by
  induction h' with
  | refl => exact h
  | tail a _ hok hs ih => exact .tail a ih hok hs

/-- An invariant of the steps is an invariant of the runs. -/
theorem invariant {P : σ → Prop} (h : Run step ok s t) (h0 : P s)
    (hstep : ∀ t a u, P t → ok t a → step t a = some u → P u) : P t := by
  induction h with
  | refl => exact h0
  | tail a _ hok hs ih => exact hstep _ a _ ih hok hs

theorem mono (h : Run step ok s t) (himp : ∀ t a, ok t a → ok' t a) : Run step ok' s t := by
  induction h with
  | refl => exact .refl
  | tail a _ hok hs ih => exact .tail a ih (himp _ a hok) hs

/-- A run is simulated by a run of a second system, when every step is matched by a run and the
relation `R` between the two states is kept. -/
theorem simulate {step' : τ → β → Option τ} {okT : τ → β → Prop} {R : σ → τ → Prop} {x : τ}
    (h : Run step ok s t) (h0 : R s x)
    (hsim : ∀ t a u y, R t y → ok t a → step t a = some u → ∃ z, Run step' okT y z ∧ R u z) :
    ∃ y, Run step' okT x y ∧ R t y := by
  induction h with
  | refl => exact ⟨x, .refl, h0⟩
  | tail a _ hok hs ih =>
      obtain ⟨y, hxy, hR⟩ := ih
      obtain ⟨z, hyz, hR'⟩ := hsim _ a _ y hR hok hs
      exact ⟨z, hxy.trans hyz, hR'⟩

end Run

/-! ## Playing a list of labels -/

/-- The state after the labels of a list, `none` when one of them is not enabled. -/
def play (step : σ → α → Option σ) : List α → σ → Option σ
  | [], s => some s
  | a :: as, s => (step s a).bind (play step as)

theorem play_append (step : σ → α → Option σ) (as bs : List α) (s : σ) :
    play step (as ++ bs) s = (play step as s).bind (play step bs) := by
  induction as generalizing s with
  | nil => rfl
  | cons a as ih =>
      rw [List.cons_append, play, play, Option.bind_assoc]
      exact congrArg _ (funext ih)

/-- Every step of the list meets `ok`. -/
def PlayOk (step : σ → α → Option σ) (ok : σ → α → Prop) : List α → σ → Prop
  | [], _ => True
  | a :: as, s => ok s a ∧ ∀ t ∈ step s a, PlayOk step ok as t

instance PlayOk.decidable (step : σ → α → Option σ) (ok : σ → α → Prop)
    [∀ s a, Decidable (ok s a)] : ∀ as s, Decidable (PlayOk step ok as s)
  | [], _ => isTrue trivial
  | a :: as, s =>
    have : ∀ t, Decidable (PlayOk step ok as t) := PlayOk.decidable step ok as
    inferInstanceAs (Decidable (ok s a ∧ ∀ t ∈ step s a, PlayOk step ok as t))

theorem Run.of_playOk {step : σ → α → Option σ} {ok : σ → α → Prop} {as : List α} {s t : σ}
    (hok : PlayOk step ok as s) (h : play step as s = some t) : Run step ok s t := by
  induction as generalizing s with
  | nil =>
      have hst : s = t := Option.some.inj h
      exact hst ▸ .refl
  | cons a as ih =>
      obtain ⟨u, hu, ht⟩ := Option.bind_eq_some_iff.mp h
      exact (Run.single a hok.1 hu).trans (ih (hok.2 u hu) ht)

/-- Labels that meet `ok` in every state. -/
theorem playOk_of_forall {step : σ → α → Option σ} {ok : σ → α → Prop} {as : List α}
    (h : ∀ a ∈ as, ∀ s, ok s a) (s : σ) : PlayOk step ok as s := by
  induction as generalizing s with
  | nil => trivial
  | cons a as ih =>
      exact ⟨h a List.mem_cons_self s, fun t _ => ih (fun b hb => h b (List.mem_cons_of_mem a hb)) t⟩

theorem playOk_true (step : σ → α → Option σ) (as : List α) (s : σ) :
    PlayOk step (fun _ _ => True) as s := playOk_of_forall (fun _ _ _ => trivial) s

/-- A list of enabled labels is a run. -/
theorem Run.of_play {step : σ → α → Option σ} {as : List α} {s t : σ}
    (h : play step as s = some t) : Run step (fun _ _ => True) s t :=
  .of_playOk (playOk_true step as s) h

end IntroToOS.Lib
