import StakingElection.Proofs.Journal

/-!
# What tasks come to

Tasks write to the journal and do not read it, so a task comes to one outcome in each state.
`t.ComesTo s post fails` says what that is: run on `s`, whatever the journal holds, the task ends
with one and the same answer and state, in `post`, or with one and the same failure, in `fails`. It
is passed on from step to step by `ComesTo.bind`.
-/

namespace StakingElection.Task

variable {σ α β : Type} {post : α → σ → Prop} {fails fails' : Failure → Prop} {s : σ}

/-- What a result and the state with it have to be like. -/
def Promised (post : α → σ → Prop) (fails : Failure → Prop) : Except Failure α → σ → Prop
  | .ok a, s => post a s
  | .error e, _ => fails e

/-- Run on a state, a task has one outcome, and it is as promised (module doc). -/
def ComesTo (t : Task σ α) (s : σ) (post : α → σ → Prop) (fails : Failure → Prop) : Prop :=
  ∃ r s', (∀ j, ∃ j', t.run s j = ⟨r, s', j'⟩) ∧ Promised post fails r s'

namespace ComesTo

/-! ## Reading an outcome -/

theorem promised {t : Task σ α} (h : t.ComesTo s post fails) (j : Journal) :
    Promised post fails (t.run s j).result (t.run s j).state := by
  obtain ⟨r, s', hrun, hpost⟩ := h
  obtain ⟨j', hj⟩ := hrun j
  rw [hj]
  exact hpost

theorem of_ok {t : Task σ α} (h : t.ComesTo s post fails) {j : Journal} {a : α}
    (hr : (t.run s j).result = .ok a) : post a (t.run s j).state := by
  have hpromised := h.promised j
  rwa [hr] at hpromised

theorem of_error {t : Task σ α} (h : t.ComesTo s post fails) {j : Journal} {e : Failure}
    (hr : (t.run s j).result = .error e) : fails e := by
  have hpromised := h.promised j
  rwa [hr] at hpromised

/-- A task that has no way to fail answers. -/
theorem exists_ok {t : Task σ α} (h : t.ComesTo s post fun _ => False) (j : Journal) :
    ∃ a, (t.run s j).result = .ok a := by
  have hpromised := h.promised j
  rcases hresult : (t.run s j).result with e | a
  · rw [hresult] at hpromised
    exact hpromised.elim
  · exact ⟨a, rfl⟩

/-- A task with one way to end ends that way. -/
theorem run_eq {t : Task σ α} {a : α} {s' : σ}
    (h : t.ComesTo s (fun b s'' => b = a ∧ s'' = s') fun _ => False) (j : Journal) :
    ∃ j', t.run s j = ⟨.ok a, s', j'⟩ := by
  obtain ⟨r, s'', hrun, hpost⟩ := h
  cases r with
  | error e => exact hpost.elim
  | ok b =>
    obtain ⟨rfl, rfl⟩ := hpost
    exact hrun j

/-- What is told before a task changes nothing about its result and the state it leaves. -/
theorem run_congr {t : Task σ α} (h : t.ComesTo s post fails) (j j' : Journal) :
    ∃ j'', t.run s j' = ⟨(t.run s j).result, (t.run s j).state, j''⟩ := by
  obtain ⟨r, s', hrun, -⟩ := h
  obtain ⟨_, hj⟩ := hrun j
  obtain ⟨j'', hj'⟩ := hrun j'
  exact ⟨j'', by rw [hj, hj']⟩

theorem result_congr {t : Task σ α} (h : t.ComesTo s post fails) (j j' : Journal) :
    (t.run s j).result = (t.run s j').result := by
  obtain ⟨_, hrun⟩ := h.run_congr j' j
  rw [hrun]

theorem of_run {t : Task σ α} {r : Except Failure α} {s' : σ}
    (hrun : ∀ j, ∃ j', t.run s j = ⟨r, s', j'⟩) (hpost : Promised post fails r s') :
    t.ComesTo s post fails := ⟨r, s', hrun, hpost⟩

/-- A task that comes down to another one has the outcomes of that. -/
theorem of_congr {t u : Task σ α} (hrun : ∀ j, ∃ j', t.run s j = u.run s j')
    (h : u.ComesTo s post fails) : t.ComesTo s post fails := by
  obtain ⟨r, s', hu, hpost⟩ := h
  refine ⟨r, s', fun j => ?_, hpost⟩
  obtain ⟨j', ht⟩ := hrun j
  rw [ht]
  exact hu j'

end ComesTo

/-! ## Single steps -/

theorem Answers.comesTo {t : Task σ α} {a : α} (ht : t.Answers a) (hpost : post a s) :
    t.ComesTo s post fails := .of_run (ht s) hpost

theorem comesTo_pure {a : α} (hpost : post a s) : (pure a : Task σ α).ComesTo s post fails :=
  (answers_pure a).comesTo hpost

theorem comesTo_modify {post : PUnit → σ → Prop} {f : σ → σ} (hpost : post ⟨⟩ (f s)) :
    (modify f : Task σ PUnit).ComesTo s post fails :=
  .of_run (fun j => ⟨j, run_modify f s j⟩) hpost

theorem comesTo_throw {e : Failure} (he : fails e) : (throw e : Task σ α).ComesTo s post fails :=
  .of_run (fun j => ⟨j, rfl⟩) he

theorem comesTo_ofExcept {ε : Type} {f : ε → Failure} {x : Except ε α}
    (hok : ∀ a, x = .ok a → post a s) (herror : ∀ e, x = .error e → fails (f e)) :
    (ofExcept f x : Task σ α).ComesTo s post fails := by
  refine .of_run (fun j => ⟨j, run_ofExcept f x s j⟩) ?_
  cases x with
  | error e => exact herror e rfl
  | ok a => exact hok a rfl

namespace ComesTo

/-! ## Steps in order -/

theorem bind {t : Task σ α} {f : α → Task σ β} {mid : α → σ → Prop} {post : β → σ → Prop}
    (ht : t.ComesTo s mid fails) (hf : ∀ a s', mid a s' → (f a).ComesTo s' post fails) :
    (t >>= f).ComesTo s post fails := by
  obtain ⟨r, s', hrun, hmid⟩ := ht
  cases r with
  | error e =>
    refine ⟨.error e, s', fun j => ?_, hmid⟩
    obtain ⟨j', hj⟩ := hrun j
    exact ⟨j', run_bind_error hj⟩
  | ok a =>
    obtain ⟨r, s'', hrun', hpost⟩ := hf a s' hmid
    refine ⟨r, s'', fun j => ?_, hpost⟩
    obtain ⟨j', hj⟩ := hrun j
    rw [run_bind_ok hj]
    exact hrun' j'

theorem mono {post' : α → σ → Prop} {t : Task σ α} (h : t.ComesTo s post fails)
    (hpost : ∀ a s', post a s' → post' a s') (hfails : ∀ e, fails e → fails' e) :
    t.ComesTo s post' fails' := by
  obtain ⟨r, s', hrun, hr⟩ := h
  refine ⟨r, s', hrun, ?_⟩
  cases r with
  | error e => exact hfails e hr
  | ok a => exact hpost a s' hr

/-! ### Steps that leave the state alone -/

theorem after_answers {t : Task σ α} {a : α} {f : α → Task σ β} {post : β → σ → Prop}
    (ht : t.Answers a) (h : (f a).ComesTo s post fails) : (t >>= f).ComesTo s post fails :=
  .of_congr (ht.run_bind f s) h

theorem after_log {f : Unit → Task σ β} {post : β → σ → Prop} {severity : Severity}
    {source message : String} (h : (f ()).ComesTo s post fails) :
    (log severity source message >>= f).ComesTo s post fails :=
  after_answers (answers_log severity source message) h

theorem after_get {f : σ → Task σ β} {post : β → σ → Prop} (h : (f s).ComesTo s post fails) :
    (get >>= f).ComesTo s post fails :=
  .of_congr (fun j => ⟨j, run_bind_get⟩) h

theorem after_ofExcept {ε : Type} {f : ε → Failure} {x : Except ε α} {g : α → Task σ β}
    {post : β → σ → Prop} (hok : ∀ a, x = .ok a → (g a).ComesTo s post fails)
    (herror : ∀ e, x = .error e → fails (f e)) : (ofExcept f x >>= g).ComesTo s post fails := by
  cases x with
  | error e =>
    exact .of_run (fun j => ⟨j, run_bind_error (run_ofExcept_error f e s j)⟩) (herror e rfl)
  | ok a => exact .of_congr (fun j => ⟨j, run_bind_ofExcept_ok⟩) (hok a rfl)

theorem map {post : β → σ → Prop} (f : α → β) {t : Task σ α}
    (h : t.ComesTo s (fun a s' => post (f a) s') fails) : (f <$> t).ComesTo s post fails := by
  rw [map_eq_pure_bind]
  exact h.bind fun a s' hpost => comesTo_pure hpost

end ComesTo

end StakingElection.Task
