import StakingElection.Journal

/-!
# Running tasks

A task runs its parts in order, each on the state and the journal that the one before it left, and
stops at the first failure. A task that only reads and tells gives its answer and leaves the state
as it was (`Task.Answers`). A task whose parts keep an invariant of the state, and fail only in ways
that the state they leave allows, does so itself (`Task.Keeps`).
-/

namespace StakingElection

/-- A sequence of computations succeeds if each of them does. -/
theorem bind_eq_ok_iff_exists {ε α β : Type} {x : Except ε α} {f : α → Except ε β} {b : β} :
    (x >>= f) = .ok b ↔ ∃ a, x = .ok a ∧ f a = .ok b := by
  cases x with
  | error e => simp [bind, Except.bind]
  | ok a => simp [bind, Except.bind]

theorem bind_eq_error {ε α β : Type} {x : Except ε α} {f : α → Except ε β} {e : ε}
    (h : (x >>= f) = .error e) : x = .error e ∨ ∃ a, x = .ok a ∧ f a = .error e := by
  cases x with
  | error e' => exact .inl (congrArg Except.error (Except.error.inj h))
  | ok a => exact .inr ⟨a, rfl, h⟩

theorem mapError_eq_ok_iff {ε ε' α : Type} {f : ε → ε'} {x : Except ε α} {a : α} :
    x.mapError f = .ok a ↔ x = .ok a := by
  cases x with
  | error e => exact ⟨(nomatch ·), (nomatch ·)⟩
  | ok b => exact ⟨fun h => congrArg Except.ok (Except.ok.inj h),
      fun h => congrArg Except.ok (Except.ok.inj h)⟩

namespace Task

variable {σ α β : Type}

theorem run_eq {t : Task σ α} {s s' : σ} {j : Journal} {r : Except Failure α}
    (hresult : (t.run s j).result = r) (hstate : (t.run s j).state = s') :
    t.run s j = ⟨r, s', (t.run s j).journal⟩ := by
  rw [← hresult, ← hstate]

@[simp]
theorem run_pure (a : α) (s : σ) (j : Journal) : (pure a : Task σ α).run s j = ⟨.ok a, s, j⟩ := rfl

theorem run_bind_ok {t : Task σ α} {f : α → Task σ β} {s s' : σ} {j j' : Journal} {a : α}
    (h : t.run s j = ⟨.ok a, s', j'⟩) : (t >>= f).run s j = (f a).run s' j' := by
  rcases hraw : StateT.run (StateT.run (ExceptT.run t) s) j with ⟨⟨r, s₁⟩, j₁⟩
  simp only [run, hraw, Run.mk.injEq] at h
  obtain ⟨rfl, rfl, rfl⟩ := h
  simp only [run, ExceptT.run_bind, StateT.run_bind, hraw]
  rfl

theorem run_bind_error {t : Task σ α} {f : α → Task σ β} {s s' : σ} {j j' : Journal} {e : Failure}
    (h : t.run s j = ⟨.error e, s', j'⟩) : (t >>= f).run s j = ⟨.error e, s', j'⟩ := by
  rcases hraw : StateT.run (StateT.run (ExceptT.run t) s) j with ⟨⟨r, s₁⟩, j₁⟩
  simp only [run, hraw, Run.mk.injEq] at h
  obtain ⟨rfl, rfl, rfl⟩ := h
  simp only [run, ExceptT.run_bind, StateT.run_bind, hraw]
  rfl

@[simp]
theorem run_log (severity : Severity) (source message : String) (s : σ) (j : Journal) :
    (log severity source message : Task σ Unit).run s j =
      ⟨.ok (), s, j.push ⟨severity, source, message⟩⟩ := rfl

@[simp]
theorem run_get (s : σ) (j : Journal) : (get : Task σ σ).run s j = ⟨.ok s, s, j⟩ := rfl

@[simp]
theorem run_modify (f : σ → σ) (s : σ) (j : Journal) :
    (modify f : Task σ PUnit).run s j = ⟨.ok (), f s, j⟩ := rfl

@[simp]
theorem run_logAll (entries : List Entry) (s : σ) (j : Journal) :
    (logAll entries : Task σ Unit).run s j = ⟨.ok (), s, j ++ entries.toArray⟩ := rfl

@[simp]
theorem run_ofExcept_ok {ε : Type} (f : ε → Failure) (a : α) (s : σ) (j : Journal) :
    (ofExcept f (.ok a : Except ε α)).run s j = ⟨.ok a, s, j⟩ := rfl

@[simp]
theorem run_ofExcept_error {ε : Type} (f : ε → Failure) (x : ε) (s : σ) (j : Journal) :
    (ofExcept f (.error x : Except ε α)).run s j = ⟨.error (f x), s, j⟩ := rfl

theorem run_ofExcept {ε : Type} (f : ε → Failure) (e : Except ε α) (s : σ) (j : Journal) :
    (ofExcept f e).run s j = ⟨e.mapError f, s, j⟩ := by
  cases e with
  | error x => exact run_ofExcept_error f x s j
  | ok a => exact run_ofExcept_ok f a s j

@[simp]
theorem run_isolated {τ : Type} (inner : τ) (t : Task τ α) (s : σ) (j : Journal) :
    (isolated inner t : Task σ α).run s j = ⟨(t.run inner j).result, s, (t.run inner j).journal⟩ :=
  rfl

@[simp]
theorem run_zoom {τ : Type} (part : σ → τ) (put : τ → σ → σ) (t : Task τ α) (s : σ) (j : Journal) :
    (zoom part put t).run s j = ⟨(t.run (part s) j).result, put (t.run (part s) j).state s,
      (t.run (part s) j).journal⟩ := rfl

@[simp]
theorem run_attempt (t : Task σ α) (s : σ) (j : Journal) : (attempt t).run s j =
    ⟨.ok (t.run s j).result, (t.run s j).state, (t.run s j).journal⟩ := rfl

/-! ## First steps -/

section first

variable {s : σ} {j : Journal}

theorem run_bind_pure {a : α} {f : α → Task σ β} :
    (pure a >>= f : Task σ β).run s j = (f a).run s j := run_bind_ok (run_pure a s j)

theorem run_bind_get {f : σ → Task σ β} : (get >>= f : Task σ β).run s j = (f s).run s j :=
  run_bind_ok (run_get s j)

theorem run_bind_modify {f : σ → σ} {g : PUnit → Task σ β} :
    (modify f >>= g : Task σ β).run s j = (g ()).run (f s) j := run_bind_ok (run_modify f s j)

theorem run_bind_log {severity : Severity} {source message : String} {f : Unit → Task σ β} :
    (log severity source message >>= f).run s j =
      (f ()).run s (j.push ⟨severity, source, message⟩) := run_bind_ok (run_log _ _ _ s j)

theorem run_bind_ofExcept_ok {ε : Type} {f : ε → Failure} {a : α} {g : α → Task σ β} :
    (ofExcept f (.ok a : Except ε α) >>= g).run s j = (g a).run s j :=
  run_bind_ok (run_ofExcept_ok f a s j)

end first

/-! ## Tasks that only tell -/

/-- A task with one answer in every state, which leaves the state alone. -/
def Answers (t : Task σ α) (a : α) : Prop := ∀ s j, ∃ j', t.run s j = ⟨.ok a, s, j'⟩

theorem answers_pure (a : α) : Answers (pure a : Task σ α) a := fun s j => ⟨j, run_pure a s j⟩

theorem answers_log (severity : Severity) (source message : String) :
    Answers (log severity source message : Task σ Unit) () := fun _ _ => ⟨_, run_log _ _ _ _ _⟩

theorem answers_logAll (entries : List Entry) : Answers (logAll entries : Task σ Unit) () :=
  fun _ _ => ⟨_, run_logAll _ _ _⟩

theorem Answers.bind {t : Task σ α} {f : α → Task σ β} {a : α} {b : β} (ht : t.Answers a)
    (hf : (f a).Answers b) : (t >>= f).Answers b := by
  intro s j
  obtain ⟨j', hrun⟩ := ht s j
  rw [run_bind_ok hrun]
  exact hf s j'

/-- What comes of a task after one that only tells. -/
theorem Answers.run_bind {t : Task σ α} {a : α} (ht : t.Answers a) (f : α → Task σ β) (s : σ)
    (j : Journal) : ∃ j', (t >>= f).run s j = (f a).run s j' := by
  obtain ⟨j', hrun⟩ := ht s j
  exact ⟨j', run_bind_ok hrun⟩

/-! ## Tasks that keep an invariant -/

/-- A task that keeps an invariant, and fails only in ways that the state it leaves allows. -/
def Keeps (inv : σ → Prop) (fails : Failure → σ → Prop) (t : Task σ α) : Prop :=
  ∀ s j, inv s → inv (t.run s j).state ∧
    ∀ e, (t.run s j).result = .error e → fails e (t.run s j).state

variable {inv : σ → Prop} {fails : Failure → σ → Prop}

theorem Answers.keeps {t : Task σ α} {a : α} (ht : t.Answers a) : t.Keeps inv fails := by
  intro s j hs
  obtain ⟨j', hrun⟩ := ht s j
  rw [hrun]
  exact ⟨hs, fun e he => nomatch he⟩

theorem Keeps.pure (a : α) : (Pure.pure a : Task σ α).Keeps inv fails := (answers_pure a).keeps

theorem Keeps.log (severity : Severity) (source message : String) :
    (Task.log severity source message : Task σ Unit).Keeps inv fails :=
  (answers_log severity source message).keeps

theorem Keeps.get : (MonadState.get : Task σ σ).Keeps inv fails :=
  fun _ _ hs => ⟨hs, fun _ he => nomatch he⟩

theorem Keeps.ofExcept {ε : Type} {f : ε → Failure} (hf : ∀ x s, inv s → fails (f x) s)
    (e : Except ε α) : (Task.ofExcept f e : Task σ α).Keeps inv fails := by
  intro s j hs
  cases e with
  | error x =>
    rw [run_ofExcept_error]
    refine ⟨hs, fun e he => ?_⟩
    obtain rfl := Except.error.inj he
    exact hf x s hs
  | ok a =>
    rw [run_ofExcept_ok]
    exact ⟨hs, fun e he => nomatch he⟩

theorem Keeps.bind {t : Task σ α} {f : α → Task σ β} (ht : t.Keeps inv fails)
    (hf : ∀ a, (f a).Keeps inv fails) : (t >>= f).Keeps inv fails := by
  intro s j hs
  have hkept := ht s j hs
  rcases hrun : t.run s j with ⟨e | a, s', j'⟩
  · rw [hrun] at hkept
    rw [run_bind_error hrun]
    refine ⟨hkept.1, fun e' he => ?_⟩
    obtain rfl := Except.error.inj he
    exact hkept.2 e rfl
  · rw [hrun] at hkept
    rw [run_bind_ok hrun]
    exact hf a s' j' hkept.1

theorem Keeps.map (f : α → β) {t : Task σ α} (ht : t.Keeps inv fails) :
    (f <$> t).Keeps inv fails := by
  rw [map_eq_pure_bind]
  exact ht.bind fun a => Keeps.pure (f a)

end Task

end StakingElection
