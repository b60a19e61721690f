import StakingElection.Proofs.Election.Recount
import StakingElection.Proofs.Election.ScoreRounds

/-!
# The choice of a round by score

A round by score elects the first of the candidates with the highest score, and that score follows
from the stake as it lies now (`Graph.presentScore`): from each edge of each elector of the
candidate to someone elected, the part of the backing there that the edge makes up (`Graph.part`).
So it is in every round of an election, whatever insertions and balancing have done to the stake
before (`Graph.round_selects`).

The same choice can be made with denominators that are kept from round to round
(`Graph.keptRounds`). A round resets those of the candidates that are left, and each elector that
has committed anything adds it to those of its candidates (`Graph.renew`). What they were before
does not matter (`Graph.Sound.highestKept?_eq`), so an election with kept denominators is the same
election, whatever they are at its start (`Graph.Running.keptRounds_eq`).
-/

namespace StakingElection.Election

variable {n : Nat}

theorem mapM_congr {ε α β : Type} {f g : α → Except ε β} {l : List α}
    (h : ∀ x ∈ l, f x = g x) : l.mapM f = l.mapM g := by
  induction l with
  | nil => rfl
  | cons x l ih =>
    obtain ⟨hx, hl⟩ := List.forall_mem_cons.mp h
    rw [List.mapM_cons, List.mapM_cons, hx, ih hl]

namespace Graph

/-! ## The score from the stake as it is -/

/-- The part of the backing of its candidate that an edge makes up, in load units, if the candidate
is elected and backed at all. -/
def part (g : Graph n) (e : Edge n) : Int :=
  if g.elected.contains e.candidate ∧ 0 < g.backed.get e.candidate then
    (e.weight * loadUnit).fdiv (g.backed.get e.candidate)
  else 0

/-- The score of a candidate: its approval over one unit and all the parts that its electors make
up. -/
def presentScore (g : Graph n) (c : Fin n) : Int :=
  (g.approval c * (loadUnit * loadUnit)).fdiv
    (loadUnit + ((g.electors.filter (·.backs c)).map fun v => (v.edges.map g.part).sum).sum)

/-- The candidate to elect next, the first of those with the highest score. -/
def foremost? (g : Graph n) : Option (Fin n) :=
  g.contenders.find? fun c => g.contenders.all fun d => g.presentScore d ≤ g.presentScore c

/-! ## Denominators that are kept -/

/-- Adds what an elector has committed, if anything, to the denominators of its candidates that are
not elected. -/
def commit (g : Graph n) (denominators : Tally n) (v : Elector n) : Tally n :=
  let amount := v.commitment g.elected g.backed
  if amount = 0 then denominators
  else
    v.edges.foldl
      (fun dens e =>
        if g.elected.contains e.candidate then dens else dens.add e.candidate amount)
      denominators

/-- The denominators of a round, from those of the round before. Only those of the candidates that
are not elected are reset. -/
def renew (g : Graph n) (kept : Tally n) : Tally n :=
  g.electors.foldl g.commit
    (.ofFn fun c => if g.elected.contains c then kept.get c else loadUnit)

/-- The candidate with the highest score by given denominators, and its score. -/
def highestKept? (g : Graph n) (approvals denominators : Tally n) :
    Except DivisionByZero (Option (Fin n × Int)) := do
  let scores ← (g.remaining.filter fun c => approvals.get c ≠ 0).mapM fun c =>
    if denominators.get c = 0 then .error ⟨⟩
    else .ok (c, (approvals.get c * loadUnit * loadUnit).fdiv (denominators.get c))
  return firstBest? (fun a b => b < a) scores

/-- Up to so many rounds, each of which hands its denominators on to the next. -/
def keptRounds (balancing : Option BalancingConfig) (approvals : Tally n) :
    Nat → Tally n → Graph n → Except DivisionByZero (Graph n)
  | 0, _, g => .ok g
  | k + 1, kept, g => do
    let denominators := g.renew kept
    match ← g.highestKept? approvals denominators with
    | none => return g
    | some (winner, score) =>
      keptRounds balancing approvals k denominators
        (← balanceIf balancing (← g.insert winner score))

/-! ## The highest score -/

/-- The best of several by score, where more is better, is the first with the highest score. -/
theorem firstBest?_eq_find?_max (score : Fin n → Int) (l : List (Fin n)) :
    firstBest? (fun a b => b < a) (l.map fun c => (c, score c)) =
      (l.find? fun c => l.all fun d => score d ≤ score c).map fun c => (c, score c) := by
  have hflip : ∀ a b : Int, decide (-b < -a) = decide (a < b) := by simp
  have hbest : firstBest? (fun a b => b < a)
      ((l.map fun c => (c, -score c)).map fun s => (id s.1, -s.2)) = _ :=
    firstBest?_map id Neg.neg hflip _
  rw [firstBest?_eq_find?] at hbest
  simpa [Function.comp_def] using hbest

theorem commitment_eq (g : Graph n) (v : Elector n) :
    v.commitment g.elected g.backed = (v.edges.map g.part).sum := by
  rw [Elector.commitment, sum_map_filter]
  refine congrArg List.sum (List.map_congr_left fun e _ => ?_)
  simp [part]

namespace Sound

variable {g : Graph n} {approvals : Tally n}

theorem scoreOf_eq_presentScore (happrovals : ∀ c, approvals.get c = g.approval c) (c : Fin n) :
    g.scoreOf approvals c = g.presentScore c := by
  rw [scoreOf, presentScore, happrovals, mul_assoc, denominator, List.filter_map, List.map_map]
  simp only [Function.comp_def, commitment_eq]

/-- A round chooses by the stake as it is. -/
theorem highestScored?_eq (h : g.Sound) (happrovals : ∀ c, approvals.get c = g.approval c) :
    g.highestScored? approvals = .ok (g.foremost?.map fun c => (c, g.presentScore c)) := by
  have hcontenders : (g.remaining.filter fun c => approvals.get c ≠ 0) = g.contenders := by
    simp only [contenders, happrovals]
  rw [highestScored?, h.scores_eq, hcontenders]
  simp only [scoreOf_eq_presentScore happrovals]
  exact congrArg Except.ok (firstBest?_eq_find?_max g.presentScore g.contenders)

/-! ## What is kept has no influence -/

/-- An elector adds to the denominator of a candidate that is left if it votes for it. -/
theorem get_commit (g : Graph n) {v : Elector n} (hnd : (v.edges.map Edge.candidate).Nodup)
    (denominators : Tally n) {c : Fin n} (hc : c ∉ g.elected) :
    (g.commit denominators v).get c =
      denominators.get c + if v.backs c then v.commitment g.elected g.backed else 0 := by
  unfold commit
  by_cases hzero : v.commitment g.elected g.backed = 0
  · simp [hzero]
  · simp only [hzero, ↓reduceIte]
    rw [Count.get_foldl_carry hnd denominators hc]
    simp only [Elector.backs_iff]

theorem get_foldl_commit (g : Graph n) {electors : List (Elector n)}
    (hnd : ∀ v ∈ electors, (v.edges.map Edge.candidate).Nodup) (denominators : Tally n)
    {c : Fin n} (hc : c ∉ g.elected) :
    (electors.foldl g.commit denominators).get c = denominators.get c +
      (electors.map fun v => if v.backs c then v.commitment g.elected g.backed else 0).sum := by
  induction electors generalizing denominators with
  | nil => simp
  | cons v rest ih =>
    obtain ⟨hv, hrest⟩ := List.forall_mem_cons.mp hnd
    rw [List.foldl_cons, ih hrest, get_commit g hv denominators hc, List.map_cons, List.sum_cons,
      add_assoc]

/-- The denominators of the candidates that are left, made anew. -/
theorem get_renew (h : g.Sound) (kept : Tally n) {c : Fin n} (hc : c ∉ g.elected) :
    (g.renew kept).get c =
      denominator (g.electors.map fun v => (v, v.commitment g.elected g.backed)) c := by
  have hout : g.elected.contains c = false := by simpa using hc
  rw [renew, get_foldl_commit g (fun v hv => (h.honest v hv).nodup) _ hc, Tally.get_ofFn, hout,
    denominator, sum_map_filter, List.map_map]
  rfl

/-- Whatever is kept, a round that makes the denominators anew chooses as one that keeps nothing. -/
theorem highestKept?_eq (h : g.Sound) (approvals kept : Tally n) :
    g.highestKept? approvals (g.renew kept) = g.highestScored? approvals := by
  have hscores : ((g.remaining.filter fun c => approvals.get c ≠ 0).mapM fun c =>
      if (g.renew kept).get c = 0 then (.error ⟨⟩ : Except DivisionByZero (Fin n × Int))
      else .ok (c, (approvals.get c * loadUnit * loadUnit).fdiv ((g.renew kept).get c))) =
        g.scores approvals := by
    apply mapM_congr
    intro c hc
    rw [h.get_renew kept (mem_remaining.mp (List.mem_of_mem_filter hc))]
  rw [highestKept?, hscores, highestScored?]

end Sound

/-- An election that keeps its denominators is the one that keeps none. -/
theorem Running.keptRounds_eq {g : Graph n} {approvals : Tally n} (h : g.Running approvals)
    (balancing : Option BalancingConfig) (k : Nat) (kept : Tally n) :
    g.keptRounds balancing approvals k kept = g.phragMmsRounds balancing approvals k := by
  induction k generalizing g kept with
  | zero => rfl
  | succ k ih =>
    rw [keptRounds, h.sound.highestKept?_eq]
    rcases h.round_cases balancing with ⟨hbest, -, hstay⟩ |
      ⟨winner, score, inserted, next, hbest, hinsert, hbalance, -, hrunning, -, -, hgo⟩
    · rw [hstay, hbest]
      rfl
    · rw [hgo, ← ih hrunning (g.renew kept), hbest]
      simp only [bind, Except.bind, hinsert, hbalance]

/-! ## Every round -/

/-- In every round of an election by score the first candidate with the highest score is chosen, as
the score follows from the stake as it is, and nobody exactly if nobody is left that has any
approval. The choice by denominators that are kept is the same, whatever they were before. -/
theorem round_selects (names : Vector String n) {voters : List Voter}
    (hstake : ∀ v ∈ voters, 0 ≤ v.stake) (balancing : Option BalancingConfig) (rounds : Nat)
    {g : Graph n}
    (hrounds : (ofVoters names voters).phragMmsRounds balancing (ofVoters names voters).approvals
      rounds = .ok g) :
    let approvals := (ofVoters names voters).approvals
    g.highestScored? approvals = .ok (g.foremost?.map fun c => (c, g.presentScore c)) ∧
    (g.foremost? = none ↔ ∀ c, c ∉ g.elected → g.approval c = 0) ∧
    ∀ kept, g.highestKept? approvals (g.renew kept) = g.highestScored? approvals := by
  intro approvals
  obtain ⟨between, heq, -, hrunning, -⟩ :=
    (running_ofVoters names hstake).rounds balancing rounds
  obtain rfl := Except.ok.inj (hrounds.symm.trans heq)
  have hchoice := hrunning.sound.highestScored?_eq hrunning.approvals
  refine ⟨hchoice, ?_, hrunning.sound.highestKept?_eq approvals⟩
  have hnone : g.foremost? = none ↔ g.contenders = [] := by
    have hbest := firstBest?_eq_find?_max g.presentScore g.contenders
    rw [← List.map_eq_nil_iff (f := fun c => (c, g.presentScore c)), ← firstBest?_eq_none_iff,
      hbest, Option.map_eq_none_iff]
    rfl
  rw [hnone, List.eq_nil_iff_forall_not_mem]
  simp only [mem_contenders, not_and, not_not]

/-- In the second round the first elector has committed 10 of the 16 that back the winner of the
first. So the next one has an approval of 13 for 1 and 10/16 units, a score of 8, whatever its
denominator was. -/
theorem round_selects_of_three_voters :
    let names : Vector String 3 := ⟨#["x", "y", "z"], rfl⟩
    let voters : List Voter := [⟨"a", 10, ["x", "y"]⟩, ⟨"b", 6, ["x"]⟩, ⟨"c", 3, ["y", "z"]⟩]
    let start := ofVoters names voters
    let g : Graph 3 := ⟨names, .ofFn ![16, 0, 0], [0], [⟨"a", 10, 0, [⟨0, 0, 10⟩, ⟨1, 0, 0⟩]⟩,
      ⟨"b", 6, 0, [⟨0, 0, 6⟩]⟩, ⟨"c", 3, 0, [⟨1, 0, 0⟩, ⟨2, 0, 0⟩]⟩]⟩
    (∀ v ∈ voters, 0 ≤ v.stake) ∧ start.phragMmsRounds (some ⟨2, 0⟩) start.approvals 1 = .ok g ∧
      g.foremost? = some 1 ∧ g.presentScore 1 = 8 * loadUnit ∧
      ∀ kept, g.highestKept? start.approvals (g.renew kept) = .ok (some (1, 8 * loadUnit)) := by
  intro names voters start g
  have hstake : ∀ v ∈ voters, 0 ≤ v.stake := by decide
  have hrounds : start.phragMmsRounds (some ⟨2, 0⟩) start.approvals 1 = .ok g := by cbv
  have hbest : g.highestScored? start.approvals = .ok (some (1, 8 * loadUnit)) := by cbv
  obtain ⟨hchoice, -, hkept⟩ := round_selects names hstake (some ⟨2, 0⟩) 1 hrounds
  obtain ⟨c, hc, hpair⟩ :=
    Option.map_eq_some_iff.mp (Except.ok.inj (hchoice.symm.trans hbest))
  obtain ⟨rfl, hscore⟩ := Prod.mk.inj hpair
  exact ⟨hstake, hrounds, hc, hscore, fun kept => (hkept kept).trans hbest⟩

end Graph

end StakingElection.Election
