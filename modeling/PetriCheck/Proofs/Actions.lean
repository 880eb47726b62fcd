import Mathlib.Data.List.Forall2

/-!
# Lists of actions

Actions that may fail, done one after the other (`List.mapM`): all of them return, or the first one that fails decides
the error.
-/

namespace PetriCheck

variable {α β γ δ ε : Type} {f : α → Except ε β}

/-- A list of actions returns if all of them return, each one item. -/
theorem forall₂_of_mapM_ok : ∀ {l : List α} {l' : List β},
    l.mapM f = .ok l' → List.Forall₂ (fun a b => f a = .ok b) l l'
  | [], l', h => by
    cases h
    exact .nil
  | a :: l, l', h => by
    rw [List.mapM_cons] at h
    cases ha : f a with
    | error e =>
      rw [ha] at h
      cases h
    | ok c =>
      cases hl : l.mapM f with
      | error e =>
        rw [ha, hl] at h
        cases h
      | ok rest =>
        rw [ha, hl] at h
        cases h
        exact .cons ha (forall₂_of_mapM_ok hl)

theorem mem_of_mapM_ok {b : β} {l : List α} {l' : List β} (h : l.mapM f = .ok l') :
    b ∈ l' ↔ ∃ a ∈ l, f a = .ok b := by
  replace h := forall₂_of_mapM_ok h
  induction h with
  | nil => simp
  | @cons a c l l' ha _ ih => simp only [List.mem_cons, exists_eq_or_imp, ha, Except.ok.injEq, ih, @eq_comm β b c]

/-- A list of actions fails at one of them. -/
theorem exists_of_mapM_error {e : ε} : ∀ {l : List α}, l.mapM f = .error e → ∃ a ∈ l, f a = .error e
  | [], h => by cases h
  | a :: l, h => by
    rw [List.mapM_cons] at h
    cases ha : f a with
    | error e' =>
      rw [ha] at h
      cases h
      exact ⟨a, List.mem_cons_self, ha⟩
    | ok b =>
      cases hl : l.mapM f with
      | error e' =>
        rw [ha, hl] at h
        cases h
        obtain ⟨a', ha', herr⟩ := exists_of_mapM_error hl
        exact ⟨a', List.mem_cons_of_mem _ ha', herr⟩
      | ok bs =>
        rw [ha, hl] at h
        cases h

theorem exists_mapM_ok : ∀ {l : List α}, (∀ a ∈ l, ∃ b, f a = .ok b) → ∃ bs, l.mapM f = .ok bs
  | [], _ => ⟨[], rfl⟩
  | a :: l, h => by
    obtain ⟨⟨b, hb⟩, hl⟩ := List.forall_mem_cons.mp h
    obtain ⟨bs, hbs⟩ := exists_mapM_ok hl
    exact ⟨b :: bs, by rw [List.mapM_cons, hb, hbs]; rfl⟩

/-- A list of actions fails where the first of them fails. -/
theorem mapM_eq_error {a : α} {e : ε} (ha : f a = .error e) (after : List α) : ∀ {before : List α},
    (∀ b ∈ before, ∃ c, f b = .ok c) → (before ++ a :: after).mapM f = .error e
  | [], _ => by
    rw [List.nil_append, List.mapM_cons, ha]
    rfl
  | b :: before, h => by
    obtain ⟨⟨c, hc⟩, hbefore⟩ := List.forall_mem_cons.mp h
    rw [List.cons_append, List.mapM_cons, hc, mapM_eq_error ha after hbefore]
    rfl

/-- Work on the result of an action does not change how it fails. -/
theorem bind_pure_eq_error {x : Except ε α} {g : α → β} {e : ε} :
    (x >>= fun a => pure (g a)) = .error e ↔ x = .error e := by
  cases x <;> simp [bind, Except.bind, pure, Except.pure]

theorem map_eq_error {x : Except ε α} {g : α → β} {e : ε} : x.map g = .error e ↔ x = .error e := by
  cases x <;> simp [Except.map]

theorem exists_of_map_eq_ok {x : Except ε α} {g : α → β} {b : β} (h : x.map g = .ok b) : ∃ a, x = .ok a ∧ g a = b := by
  cases x with
  | error e => cases h
  | ok a => exact ⟨a, rfl, Except.ok.inj h⟩

/-- Actions that fail as lists of actions do fail, one after the other, as the lists do. -/
theorem mapM_flatMap_eq_error {act : γ → Except ε δ} {items : γ → List α} {e : ε} : ∀ {l : List γ},
    (∀ c ∈ l, ∀ e, act c = .error e ↔ (items c).mapM f = .error e) →
      (l.mapM act = .error e ↔ (l.flatMap items).mapM f = .error e)
  | [], _ => by simp [pure, Except.pure]
  | c :: l, h => by
    obtain ⟨hc, hl⟩ := List.forall_mem_cons.mp h
    rw [List.mapM_cons, List.flatMap_cons, List.mapM_append]
    cases hact : act c with
    | error e' =>
      rw [(hc e').1 hact]
      simp [bind, Except.bind]
    | ok d =>
      cases hitems : (items c).mapM f with
      | error e' =>
        rw [(hc e').2 hitems] at hact
        cases hact
      | ok bs =>
        change (l.mapM act >>= fun ds => pure (d :: ds)) = _ ↔
          ((l.flatMap items).mapM f >>= fun bs' => pure (bs ++ bs')) = _
        rw [bind_pure_eq_error, bind_pure_eq_error]
        exact mapM_flatMap_eq_error hl

end PetriCheck
