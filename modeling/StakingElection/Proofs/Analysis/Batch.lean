import StakingElection.Analysis.Batch
import StakingElection.Proofs.ActiveStake
import StakingElection.Proofs.Analysis.Stake
import StakingElection.Proofs.LedgerChecks.Report
import StakingElection.Proofs.State.Export

/-!
# What a run over several states comes to

A run takes its operation to each state by itself, so that what is appended for a state, if
anything, is what the operation comes to on that state alone (`outcome`), and the failures are those
of the states (`run_runAll`). That needs that an operation fails in no other way than a run expects,
which is so for states without negative stake and without a number that is too long
(`comesTo_rowOf`). A row may still have such a number, as a sum of squares is longer than what it is
made of, and the run ends there (`Table.grown`).
-/

namespace StakingElection

/-! ## Attempts in a row -/

section attempts

variable {ε α β γ : Type} {f : α → Except ε β} {g : β → Except ε γ} {a : α} {l : List α}

/-- What comes of the attempts that succeed. -/
def successes (f : α → Except ε β) (l : List α) : List β := l.filterMap fun a => (f a).toOption

/-- How many attempts fail. -/
def failures (f : α → Except ε β) (l : List α) : Nat := l.countP fun a => (f a).toOption.isNone

theorem successes_cons_ok {b : β} (h : f a = .ok b) :
    successes f (a :: l) = b :: successes f l :=
  List.filterMap_cons_some (by rw [h]; rfl)

theorem successes_cons_error {e : ε} (h : f a = .error e) :
    successes f (a :: l) = successes f l :=
  List.filterMap_cons_none (by rw [h]; rfl)

theorem failures_cons_ok {b : β} (h : f a = .ok b) : failures f (a :: l) = failures f l :=
  List.countP_cons_of_neg (by rw [h]; exact Bool.false_ne_true)

theorem failures_cons_error {e : ε} (h : f a = .error e) :
    failures f (a :: l) = failures f l + 1 :=
  List.countP_cons_of_pos (by rw [h]; rfl)

theorem failures_eq_zero_iff : failures f l = 0 ↔ ∀ a ∈ l, ∃ b, f a = .ok b := by
  rw [failures, List.countP_eq_zero]
  refine forall₂_congr fun a _ => ?_
  cases h : f a with
  | error e => simp [Except.toOption]
  | ok b => simp [Except.toOption]

theorem mem_successes {b : β} (h : b ∈ successes f l) : ∃ a ∈ l, f a = .ok b := by
  obtain ⟨a, ha, hb⟩ := List.mem_filterMap.mp h
  refine ⟨a, ha, ?_⟩
  cases hf : f a with
  | error e =>
    rw [hf] at hb
    cases hb
  | ok b' =>
    rw [hf] at hb
    rw [Option.some.inj hb]

theorem all_successes_and_failures_iff {p : β → Bool} :
    (successes f l).all p = true ∧ failures f l = 0 ↔ ∀ a ∈ l, ∃ b, f a = .ok b ∧ p b = true := by
  rw [failures_eq_zero_iff, List.all_eq_true]
  constructor
  · rintro ⟨hall, hnone⟩ a ha
    obtain ⟨b, hb⟩ := hnone a ha
    exact ⟨b, hb, hall b (List.mem_filterMap.mpr ⟨a, ha, by rw [hb]; rfl⟩)⟩
  · refine fun h => ⟨fun b hb => ?_, fun a ha => (h a ha).imp fun _ => And.left⟩
    obtain ⟨a, ha, hok⟩ := mem_successes hb
    obtain ⟨b', hb', hp⟩ := h a ha
    rwa [Except.ok.inj (hok.symm.trans hb')]

/-- Two attempts after each other succeed together. -/
theorem successes_bind (f : α → Except ε β) (g : β → Except ε γ) (l : List α) :
    successes g (successes f l) = successes (fun a => f a >>= g) l := by
  induction l with
  | nil => rfl
  | cons a l ih =>
    cases hf : f a with
    | error e =>
      rw [successes_cons_error hf, successes_cons_error (e := e) (by rw [hf]; rfl), ih]
    | ok b =>
      rw [successes_cons_ok hf]
      cases hg : g b with
      | error e =>
        rw [successes_cons_error hg, successes_cons_error (e := e) (by rw [hf]; exact hg), ih]
      | ok c => rw [successes_cons_ok hg, successes_cons_ok (b := c) (by rw [hf]; exact hg), ih]

theorem failures_bind (f : α → Except ε β) (g : β → Except ε γ) (l : List α) :
    failures f l + failures g (successes f l) = failures (fun a => f a >>= g) l := by
  induction l with
  | nil => rfl
  | cons a l ih =>
    cases hf : f a with
    | error e =>
      rw [successes_cons_error hf, failures_cons_error hf,
        failures_cons_error (e := e) (by rw [hf]; rfl), ← ih, Nat.add_right_comm]
    | ok b =>
      rw [successes_cons_ok hf, failures_cons_ok hf]
      cases hg : g b with
      | error e =>
        rw [failures_cons_error hg, failures_cons_error (e := e) (by rw [hf]; exact hg), ← ih,
          Nat.add_assoc]
      | ok c =>
        rw [failures_cons_ok hg, failures_cons_ok (b := c) (by rw [hf]; exact hg), ih]

theorem mapM_eq_ok_iff_failures {bs : List β} :
    l.mapM f = .ok bs ↔ failures f l = 0 ∧ successes f l = bs := by
  induction l generalizing bs with
  | nil => exact ⟨fun h => ⟨rfl, Except.ok.inj h⟩, fun h => congrArg Except.ok h.2⟩
  | cons a l ih =>
    rw [List.mapM_cons, bind_eq_ok_iff_exists]
    cases hf : f a with
    | error e =>
      rw [failures_cons_error hf]
      exact ⟨(fun ⟨_, h, _⟩ => nomatch h), (fun h => nomatch h.1)⟩
    | ok b =>
      rw [failures_cons_ok hf, successes_cons_ok hf]
      constructor
      · rintro ⟨_, hb, h⟩
        obtain rfl := Except.ok.inj hb
        obtain ⟨bs', hbs, h⟩ := bind_eq_ok_iff_exists.mp h
        obtain rfl := Except.ok.inj h
        obtain ⟨hnone, rfl⟩ := ih.mp hbs
        exact ⟨hnone, rfl⟩
      · rintro ⟨hnone, rfl⟩
        exact ⟨b, rfl, bind_eq_ok_iff_exists.mpr ⟨_, ih.mpr ⟨hnone, rfl⟩, rfl⟩⟩

end attempts

/-! ## Operations on one state -/

/-- A state without negative stake, neither in its ledgers nor in a stored snapshot. -/
structure StakingState.Solvent (s : StakingState) : Prop where
  ledgers : ∀ l ∈ s.ledgers.values, 0 ≤ l.active
  stored : ∀ x, s.slots.snapshot? = some x → ∀ v ∈ x.voters, 0 ≤ v.stake

namespace Analysis

variable {s : StakingState} {op : Operation} {config : Config} {c : Int}

/-- The least active stake of a state is found and shown. -/
theorem comesTo_minActiveStake (hm : s.Moderate) (hs : s.Solvent) (c : Int) :
    (minActiveStake (.whole c)).ComesTo s
      (fun r _ => ∃ stake?, s.minActiveStake (.whole c) = .ok stake? ∧ r = ⟨s.blockNumber, stake?⟩)
      fun _ => False := by
  refine .after_log (.after_get (.after_ofExcept (fun stake? hstake => ?_) fun fault hfault => ?_))
  · cases stake? with
    | none => exact .after_log (Task.comesTo_pure ⟨none, hstake, rfl⟩)
    | some stake =>
      obtain ⟨who, rfl⟩ := StakingState.exists_weightOf_of_minActiveStake hstake
      obtain ⟨text, htext⟩ := Profile.exists_formatBalance hm.profile
        (StakingState.weightOf_nonneg hs.ledgers who) (hm.short_weightOf who)
      refine .after_ofExcept (fun shown _ => .after_log (Task.comesTo_pure ⟨_, hstake, rfl⟩))
        fun e he => ?_
      rw [htext] at he
      cases he
  · rw [StakingState.minActiveStake, minActiveStake_whole] at hfault
    cases hfault

/-- There is nothing to take, or too much for a limit that can be told. -/
theorem isAnalysis_of_fresh {limits : Bounds} {e : Failure} (hlimit : Short limits.targets)
    (h : s.fresh limits (.whole c) = .error e) : e.isAnalysis = true := by
  unfold StakingState.fresh at h
  rcases bind_eq_error h with htargets | ⟨targets, -, h⟩
  · unfold StakingState.electableTargets at htargets
    split at htargets
    · obtain rfl := Except.error.inj htargets
      rfl
    · dsimp only at htargets
      split at htargets
      · obtain rfl := Except.error.inj htargets
        rw [Failure.isAnalysis, Failure.hasText, Text.hasText_iff.mpr hlimit]
        rfl
      · cases htargets
  · rcases bind_eq_error h with hvoters | ⟨voters, -, h⟩
    · rw [StakingState.electingVoters_whole] at hvoters
      split at hvoters
      · obtain rfl := Except.error.inj hvoters
        rfl
      · cases hvoters
    · cases h

/-- A snapshot without negative stake, and seats, whose numbers are not too long. -/
structure Modest (x : Snapshot) (desired : Int) : Prop where
  stake : ∀ v ∈ x.voters, 0 ≤ v.stake
  short : ∀ v ∈ x.voters, Short v.stake
  seats : Short desired

theorem feeds_modest (hm : s.Moderate) (hs : s.Solvent) (c : Int) :
    s.Feeds (.whole c) Modest fun e => e.isAnalysis = true where
  stored x hx := by
    refine ⟨hs.stored x hx, hm.stakes x hx, ?_⟩
    cases hseats : s.slots.seats? with
    | none => exact short_zero
    | some seats => exact hm.seats seats hseats
  fresh _ _ hfresh :=
    ⟨StakingState.stake_fresh_nonneg hs.ledgers hfresh, hm.short_fresh hfresh, hm.short_seats _⟩
  refused limits e hlimits h := by
    refine isAnalysis_of_fresh ?_ h
    rw [hlimits]
    exact (Profile.numbers_of_ofChain? hm.profile).2.2
  least fault hfault := by
    rw [StakingState.minActiveStake, minActiveStake_whole] at hfault
    cases hfault

/-- Solvers fail on modest snapshots only for want of winners or of a check, and tell why. -/
theorem serves_modest (config : Config) :
    Serves config Modest (fun _ => True) fun e => e.isAnalysis = true where
  size x desired h hlong := by
    have hplain : Json.Plain 4 x.toValue := StakingState.plain_snapshot h.short
    rw [hplain.hasText] at hlong
    cases hlong
  mine x desired h solver t := by
    refine (comesTo_mineWith h.stake _ ?_ (fun g rule hg hcheck => ?_) t).mono
      (fun _ _ hpost => ⟨hpost.1, trivial⟩) fun _ => id
    · rw [Failure.isAnalysis, Failure.hasText, Text.hasText_iff.mpr h.seats]
      rfl
    · rw [Failure.isAnalysis, Failure.hasText, hg.hasText_of_check h.seats h.short hcheck]
      rfl
  dpos _ _ _ := trivial

theorem comesTo_rowOf (hm : s.Moderate) (hs : s.Solvent) (hc : config.coefficient = .whole c)
    (op : Operation) :
    (rowOf op config).ComesTo s (fun _ _ => True) fun e => e.isAnalysis = true := by
  have helections : (ElectionResult.toRow <$> elections config).ComesTo s (fun _ _ => True)
      fun e => e.isAnalysis = true :=
    .map _ ((comesTo_elections (serves_modest config) (hc ▸ feeds_modest hm hs c)).mono
      (fun _ _ _ => trivial) fun _ => id)
  cases op with
  | minActiveStake =>
    rw [rowOf, hc]
    exact .map _ ((comesTo_minActiveStake hm hs c).mono (fun _ _ _ => trivial) fun _ => False.elim)
  | electionAnalysis => exact helections
  | ledgerChecks => exact helections

/-- The row of a state, or why there is none. -/
def outcome (op : Operation) (config : Config) (s : StakingState) : Except Failure Row :=
  ((rowOf op config).run s).result

theorem outcome_minActiveStake (hm : s.Moderate) (hs : s.Solvent)
    (hc : config.coefficient = .whole c) {stake? : Option Int}
    (hstake : s.minActiveStake (.whole c) = .ok stake?) :
    outcome .minActiveStake config s = .ok (StakeResult.toRow ⟨s.blockNumber, stake?⟩) := by
  have hrun : (rowOf .minActiveStake config).ComesTo s
      (fun r _ => r = StakeResult.toRow ⟨s.blockNumber, stake?⟩) fun _ => False := by
    rw [rowOf, hc]
    refine .map _ ((comesTo_minActiveStake hm hs c).mono ?_ fun _ => id)
    rintro _ _ ⟨found?, hfound, rfl⟩
    rw [Except.ok.inj (hfound.symm.trans hstake)]
  obtain ⟨r, hr⟩ := hrun.exists_ok #[]
  rw [outcome, hr, hrun.of_ok hr]

/-! ## Rows of a table -/

namespace Table

/-- The text of a table that rows are appended to in order. At the first one that has no text the
table stays as it is, but for its header. -/
def grown (text? : Option String) : List Row → Option String
  | [] => text?
  | r :: rows =>
    if r.hasText then grown (some (r.appendTo text?)) rows else some (r.opened text?)

/-- The table with rows behind it. -/
def withRows (t : Table) (rows : List Row) : Table := { t with text? := grown t.text? rows }

/-- The text of a new table with rows: a header before the first one, and nothing without any. -/
def textOf : List Row → Option String
  | [] => none
  | r :: rows =>
    some (Row.line r.header ++ String.join (((r :: rows).takeWhile Row.hasText).map Row.text))

variable {t : Table} {r : Row} {rows : List Row}

theorem grown_cons_of_hasText (hr : r.hasText = true) (text? : Option String) (rows : List Row) :
    grown text? (r :: rows) = grown (some (r.appendTo text?)) rows := by
  rw [grown, if_pos hr]

theorem grown_cons_of_not_hasText (hr : r.hasText = false) (text? : Option String)
    (rows : List Row) : grown text? (r :: rows) = some (r.opened text?) := by
  rw [grown, hr, if_neg Bool.false_ne_true]

theorem grown_some (rows : List Row) (text : String) :
    grown (some text) rows =
      some (text ++ String.join ((rows.takeWhile Row.hasText).map Row.text)) := by
  induction rows generalizing text with
  | nil => simp [grown]
  | cons r rows ih =>
    cases hr : r.hasText with
    | false =>
      rw [grown_cons_of_not_hasText hr, List.takeWhile_cons_of_neg (by simp [hr])]
      simp [Row.opened]
    | true =>
      rw [grown_cons_of_hasText hr, ih, List.takeWhile_cons_of_pos hr, List.map_cons,
        String.join_cons, Row.appendTo, String.append_assoc]
      rfl

theorem grown_none (rows : List Row) : grown none rows = textOf rows := by
  cases rows with
  | nil => rfl
  | cons r rows =>
    -- the first row is under its header as it is under a text that is there
    have hopened : grown none (r :: rows) = grown (some (Row.line r.header)) (r :: rows) := rfl
    rw [hopened, grown_some, textOf]

theorem run_append (ht : t.obstacle? = none) (hr : r.hasText = true) (j : Journal) :
    ∃ j', (append r).run t j = ⟨.ok (), t.withRows [r], j'⟩ := by
  unfold append
  rw [Task.run_bind_get, ht]
  simp only [hr, Bool.not_true, Bool.false_eq_true, if_false, withRows,
    grown_cons_of_hasText hr]
  exact ⟨_, Task.run_bind_modify⟩

/-- A row that has no text is refused. -/
theorem run_append_error (ht : t.obstacle? = none) (hr : r.hasText = false) (rows : List Row)
    (j : Journal) :
    (append r).run t j = ⟨.error .numberTooLong, t.withRows (r :: rows), j⟩ := by
  unfold append
  rw [Task.run_bind_get, ht]
  simp only [hr, Bool.not_false, if_true, withRows, grown_cons_of_not_hasText hr]
  exact Task.run_bind_modify

end Table

variable {t : Table} {r : Row}

/-- What is attempted with a state is its outcome, whatever was told before it. -/
theorem run_attempt_rowOf (h : (rowOf op config).ComesTo s (fun _ _ => True)
    fun e => e.isAnalysis = true) (t : Table) (j : Journal) :
    ∃ j', (Task.attempt (Task.isolated s (rowOf op config)) : Task Table _).run t j =
      ⟨.ok (outcome op config s), t, j'⟩ := by
  refine ⟨((rowOf op config).run s j).journal, ?_⟩
  rw [Task.run_attempt, Task.run_isolated, h.result_congr j #[], outcome]

theorem run_runOne_ok (h : (rowOf op config).ComesTo s (fun _ _ => True)
    fun e => e.isAnalysis = true) (ht : t.obstacle? = none) (hr : outcome op config s = .ok r)
    (htext : r.hasText = true) (j : Journal) :
    ∃ j', (runOne op config s).run t j = ⟨.ok 0, t.withRows [r], j'⟩ := by
  obtain ⟨j₁, hrun⟩ := run_attempt_rowOf h t j
  obtain ⟨j₂, happend⟩ := Table.run_append ht htext j₁
  refine ⟨j₂, ?_⟩
  rw [runOne, Task.run_bind_ok hrun, hr]
  exact Task.run_bind_ok happend

theorem run_runOne_refused (h : (rowOf op config).ComesTo s (fun _ _ => True)
    fun e => e.isAnalysis = true) (ht : t.obstacle? = none) (hr : outcome op config s = .ok r)
    (htext : r.hasText = false) (rows : List Row) (j : Journal) :
    ∃ j', (runOne op config s).run t j =
      ⟨.error .numberTooLong, t.withRows (r :: rows), j'⟩ := by
  obtain ⟨j₁, hrun⟩ := run_attempt_rowOf h t j
  refine ⟨j₁, ?_⟩
  rw [runOne, Task.run_bind_ok hrun, hr]
  exact Task.run_bind_error (Table.run_append_error ht htext rows j₁)

theorem run_runOne_error (h : (rowOf op config).ComesTo s (fun _ _ => True)
    fun e => e.isAnalysis = true) {e : Failure} (he : outcome op config s = .error e)
    (t : Table) (j : Journal) :
    ∃ j', (runOne op config s).run t j = ⟨.ok 1, t, j'⟩ := by
  obtain ⟨j₁, hrun⟩ := run_attempt_rowOf h t j
  rw [runOne, Task.run_bind_ok hrun, he]
  simp only [if_pos (h.of_error he)]
  exact ⟨_, Task.run_bind_log⟩

/-- How a run over states ends that come to rows: with a count of the others, unless a row has no
text. -/
def ending (rows : List Row) (count : Nat) : Except Failure Nat :=
  if rows.all Row.hasText then .ok count else .error .numberTooLong

theorem ending_cons (r : Row) (rows : List Row) (count : Nat) :
    ending (r :: rows) count = if r.hasText then ending rows count else .error .numberTooLong := by
  unfold ending
  cases hr : r.hasText <;> simp [hr]

theorem run_add_ending {u : Task Table Nat} {t t' : Table} {rows : List Row} {count : Nat}
    {j j' : Journal} (h : u.run t j = ⟨ending rows count, t', j'⟩) (n : Nat) :
    (u >>= fun m => pure (n + m)).run t j = ⟨ending rows (n + count), t', j'⟩ := by
  unfold ending at h ⊢
  by_cases htexts : rows.all Row.hasText
  · rw [if_pos htexts] at h ⊢
    exact Task.run_bind_ok h
  · rw [if_neg htexts] at h ⊢
    exact Task.run_bind_error h

/-- A run appends the rows of the states that have one, in order, and counts the others. -/
theorem run_runAll {states : List StakingState} (h : ∀ s ∈ states, (rowOf op config).ComesTo s
    (fun _ _ => True) fun e => e.isAnalysis = true) (ht : t.obstacle? = none) (j : Journal) :
    ∃ j', (runAll op config states).run t j =
      ⟨ending (successes (outcome op config) states) (failures (outcome op config) states),
        t.withRows (successes (outcome op config) states), j'⟩ := by
  induction states generalizing t j with
  | nil => exact ⟨j, rfl⟩
  | cons s states ih =>
    obtain ⟨hs, hstates⟩ := List.forall_mem_cons.mp h
    unfold runAll
    cases houtcome : outcome op config s with
    | ok r =>
      rw [failures_cons_ok houtcome, successes_cons_ok houtcome]
      cases htext : r.hasText with
      | true =>
        obtain ⟨j₁, hone⟩ := run_runOne_ok hs ht houtcome htext j
        obtain ⟨j₂, hall⟩ := ih (t := t.withRows [r]) hstates ht j₁
        refine ⟨j₂, ?_⟩
        rw [Task.run_bind_ok hone, run_add_ending hall, ending_cons, if_pos htext, Nat.zero_add]
        simp only [Table.withRows, Table.grown_cons_of_hasText htext]
        rfl
      | false =>
        obtain ⟨j₁, hone⟩ := run_runOne_refused hs ht houtcome htext
          (successes (outcome op config) states) j
        refine ⟨j₁, ?_⟩
        rw [Task.run_bind_error hone, ending_cons, htext, if_neg Bool.false_ne_true]
    | error e =>
      obtain ⟨j₁, hone⟩ := run_runOne_error hs houtcome t j
      obtain ⟨j₂, hall⟩ := ih hstates ht j₁
      refine ⟨j₂, ?_⟩
      rw [Task.run_bind_ok hone, run_add_ending hall, failures_cons_error houtcome,
        successes_cons_error houtcome, Nat.add_comm]

/-! ## Ledger checks -/

variable {σ : Type} {states : List StakingState}

theorem comesTo_migrate (batch : List (String × String)) (r : LedgerChecks.Relation) :
    (LedgerChecks.migrate batch).ComesTo r (fun _ _ => True) fun e => e.isAnalysis = true := by
  induction batch generalizing r with
  | nil => exact Task.comesTo_pure trivial
  | cons e batch ih =>
    obtain ⟨stash, controller⟩ := e
    have hone : (LedgerChecks.migrateOne stash controller).ComesTo r (fun _ _ => True)
        fun e => e.isAnalysis = true := by
      refine .after_get ?_
      cases r.source? stash controller with
      | none => exact Task.comesTo_throw rfl
      | some found =>
        dsimp only
        split
        · exact .after_log (Task.comesTo_modify trivial)
        · exact Task.comesTo_modify trivial
    exact hone.bind fun _ r' _ => (ih r').bind fun _ _ _ => Task.comesTo_pure trivial

/-- The checks come to the same whatever state they are run on, which they leave alone. -/
theorem exists_check (states : List StakingState) : ∃ r : Except Failure LedgerChecks.Report,
    (∀ e, r = .error e → e.isAnalysis = true) ∧ ∀ {σ : Type} (s : σ) (j : Journal),
      ∃ j', (LedgerChecks.check states : Task σ _).run s j = ⟨r, s, j'⟩ := by
  cases horder : LedgerChecks.orderStates states with
  | error cause =>
    refine ⟨.error (.precondition cause), fun e he => Except.error.inj he ▸ rfl, fun s j => ⟨j, ?_⟩⟩
    rw [LedgerChecks.check, horder]
    exact Task.run_bind_error rfl
  | ok pair =>
    have hmigrate := comesTo_migrate
      (LedgerChecks.scanBonds pair.2.ledgers pair.2.bonded).noLedger (.ofState pair.1)
    let migration := (LedgerChecks.migrate
      (LedgerChecks.scanBonds pair.2.ledgers pair.2.bonded).noLedger).run (.ofState pair.1) #[]
    refine ⟨migration.result.map fun migrated =>
      LedgerChecks.reportOf pair.1 pair.2 migrated migration.state, fun e he => ?_, fun s j => ?_⟩
    · cases hresult : migration.result with
      | ok migrated =>
        rw [hresult] at he
        cases he
      | error cause =>
        rw [hresult] at he
        obtain rfl := Except.error.inj he
        exact hmigrate.of_error hresult
    · obtain ⟨told, hstate, hresult⟩ := LedgerChecks.run_check horder s j
      obtain ⟨_, hcongr⟩ := hmigrate.run_congr #[] told
      rw [hcongr] at hresult
      exact ⟨_, Task.run_eq hresult hstate⟩

theorem exists_ledgerChecks (states : List StakingState) :
    ∃ r : Except Failure LedgerChecks.Report, (∀ e, r = .error e → e.isAnalysis = true) ∧
      ∀ {σ : Type} (s : σ) (j : Journal),
        ∃ j', (ledgerChecks states : Task σ _).run s j = ⟨r, s, j'⟩ := by
  obtain ⟨r, hfails, hrun⟩ := exists_check states
  refine ⟨r, hfails, fun s j => ?_⟩
  simp only [ledgerChecks, tell]
  rw [Task.run_bind_log]
  obtain ⟨j₁, hcheck⟩ := hrun s (j.push _)
  cases r with
  | error e => exact ⟨j₁, Task.run_bind_error hcheck⟩
  | ok report =>
    rw [Task.run_bind_ok hcheck]
    split
    · exact ⟨_, Task.run_bind_log⟩
    · exact ⟨_, rfl⟩

/-- The report on states, or why there is none. -/
def report (states : List StakingState) : Except Failure LedgerChecks.Report :=
  ((ledgerChecks states : Task Unit _).run ()).result

/-- The ledger checks write nothing, and count as one failure if there is no report. -/
theorem run_runLedgerChecks (states : List StakingState) (t : Table) (j : Journal) :
    ∃ j', (runLedgerChecks states).run t j =
      ⟨.ok (failures report [states]), t, j'⟩ := by
  obtain ⟨r, hfails, hrun⟩ := exists_ledgerChecks states
  obtain ⟨_, hreport⟩ := hrun () #[]
  obtain ⟨j₁, hchecks⟩ := hrun t j
  have hattempt : (Task.attempt (ledgerChecks states) : Task Table _).run t j =
      ⟨.ok r, t, j₁⟩ := by rw [Task.run_attempt, hchecks]
  rw [runLedgerChecks, Task.run_bind_ok hattempt]
  cases r with
  | ok found =>
    rw [failures_cons_ok (b := found) (by rw [report, hreport])]
    exact ⟨_, Task.run_bind_log⟩
  | error e =>
    rw [failures_cons_error (e := e) (by rw [report, hreport])]
    simp only [if_pos (hfails e rfl)]
    exact ⟨_, Task.run_bind_log⟩

end Analysis

end StakingElection
