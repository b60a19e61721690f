import StakingElection.Proofs.Election.Committee

/-!
# Voters without stake

A voter without stake takes part in every step of an election and changes nothing in it: it adds
nothing to a score, and no stake that it could hand out (`Elector.Honest.rebalance_of_unfunded`,
`Elector.Honest.support_of_unfunded`). So each step can be made with all electors or with those that
have stake (`Graph.funded`), and an election has the same outcome without the voters that have none
(`seqPhragmen_filter_stake`, `phragMms_filter_stake`).
-/

namespace StakingElection.Election

variable {n : Nat}

namespace Elector

/-- Whether an elector has any stake. -/
def funded (v : Elector n) : Bool := 0 < v.budget

theorem funded_congr {v w : Elector n} (h : v.ballot = w.ballot) : v.funded = w.funded := by
  rw [funded, funded, budget_congr h]

theorem funded_splitByLoad (elected : List (Fin n)) (v : Elector n) :
    (v.splitByLoad elected).funded = v.funded := by
  simp only [splitByLoad]
  split
  · rfl
  · rfl

theorem budget_of_unfunded {v : Elector n} (hbudget : 0 ≤ v.budget) (hv : v.funded = false) :
    v.budget = 0 := by
  have hle : v.budget ≤ 0 := not_lt.mp (of_decide_eq_false hv)
  exact le_antisymm hle hbudget

/-- A sum to which electors without stake add nothing. -/
theorem sum_map_funded {electors : List (Elector n)} {f : Elector n → Int}
    (h : ∀ v ∈ electors, v.funded = false → f v = 0) :
    ((electors.filter funded).map f).sum = (electors.map f).sum := by
  rw [sum_map_filter]
  apply congrArg List.sum
  apply List.map_congr_left
  intro v hv
  split
  · rfl
  · next hno => exact (h v hv (Bool.eq_false_iff.mpr hno)).symm

namespace Honest

variable {elected : List (Fin n)} {v : Elector n} {backed : Tally n}

/-- Without stake there is nothing to hand out. -/
theorem weightOn_of_unfunded (h : v.Honest elected) (hv : v.funded = false) (c : Fin n) :
    v.weightOn c = 0 := by
  have hpart : v.weightOn c ≤ v.spent := by
    rw [spent_eq_sum]
    exact Finset.single_le_sum (fun d _ => h.weight_nonneg d) (Finset.mem_univ c)
  have hspent := h.spent_le
  rw [budget_of_unfunded h.budget_nonneg hv] at hspent
  exact le_antisymm (hpart.trans hspent) (h.weight_nonneg c)

theorem weight_of_unfunded (h : v.Honest elected) (hv : v.funded = false) {e : Edge n}
    (he : e ∈ v.edges) : e.weight = 0 := by
  rw [← weightOn_of_mem h.nodup he]
  exact h.weightOn_of_unfunded hv e.candidate

theorem settled_of_unfunded (h : v.Honest elected) (hv : v.funded = false) :
    v.Settled elected backed := by
  constructor
  · intro c _ hpos
    rw [h.weightOn_of_unfunded hv c] at hpos
    exact absurd hpos (lt_irrefl 0)
  · intro _
    rw [budget_of_unfunded h.budget_nonneg hv]
    exact Finset.sum_eq_zero fun c _ => h.weightOn_of_unfunded hv c

/-- A move of an elector without stake does nothing. -/
theorem rebalance_of_unfunded (h : v.Honest elected) (hv : v.funded = false)
    (hback : ∀ c, v.weightOn c ≤ backed.get c) (tolerance : Int) :
    rebalance elected tolerance backed v = ⟨v, backed, .ok 0⟩ :=
  (h.settled_of_unfunded hv).rebalance_eq h (fun c _ => hback c) tolerance

theorem commitment_of_unfunded (h : v.Honest elected) (hv : v.funded = false) :
    v.commitment elected backed = 0 := by
  apply sum_map_eq_zero
  intro e he
  rw [h.weight_of_unfunded hv (List.mem_of_mem_filter he), zero_mul, Int.zero_fdiv]

/-- Nor does it support a winner with anything. -/
theorem support_of_unfunded (h : v.Honest elected) (hv : v.funded = false) {winner : Fin n}
    (hnew : winner ∉ elected) (hbacks : v.backs winner) {cutoff : Int} (hcutoff : 0 ≤ cutoff)
    (hback : ∀ c, v.weightOn c ≤ backed.get c) :
    v.support winner cutoff backed = .ok (v, backed) := by
  obtain ⟨backed', hsupport, hbacked⟩ := h.support_eq hnew cutoff hback
  obtain ⟨after, _, hsupport', hshifted⟩ := h.support hnew hbacks hcutoff hback
  obtain ⟨rfl, -⟩ := Prod.mk.inj (Except.ok.inj (hsupport'.symm.trans hsupport))
  -- the elector is honest afterwards as well, so it has put nothing on anyone
  have hafter : ∀ c, v.weightAfter winner cutoff backed c = 0 := by
    intro c
    rw [← h.weightOn_support hbacks c]
    apply (hshifted.honest _ List.mem_cons_self).weightOn_of_unfunded
    rw [funded_congr (ballot_reweigh _ _ v), hv]
  have hsame : backed' = backed := by
    ext c
    rw [hbacked, hafter, h.weightOn_of_unfunded hv c, sub_zero, add_zero]
  rw [hsupport, hsame, reweigh_eq_self h.nodup]
  intro c _
  rw [hafter, h.weightOn_of_unfunded hv c]

end Honest

/-- The electors without stake can be left out of the support of a winner. -/
theorem supportAll_funded {elected : List (Fin n)} {electors : List (Elector n)}
    (h : ∀ v ∈ electors, v.Honest elected) {winner : Fin n} (hnew : winner ∉ elected)
    {cutoff : Int} (hcutoff : 0 ≤ cutoff) {backed : Tally n}
    (hback : ∀ c, handed electors c ≤ backed.get c) :
    supportAll winner cutoff backed (electors.filter funded) =
      (supportAll winner cutoff backed electors).map fun after =>
        (after.1.filter funded, after.2) := by
  induction electors generalizing backed with
  | nil => rfl
  | cons v rest ih =>
    have ⟨hv, hrest⟩ := List.forall_mem_cons.mp h
    have hle : ∀ c, v.weightOn c ≤ backed.get c := fun c => weightOn_le_of_handed_le h hback c
    obtain ⟨v', between, hfirst, hmoved⟩ := hv.turn hnew hcutoff hle
    have hothers := ih hrest (hmoved.handed_le hback)
    have hfunded : v'.funded = v.funded := funded_congr (List.cons.inj hmoved.ballots).1
    rw [supportAll_cons hfirst]
    cases hstake : v.funded with
    | true =>
      rw [List.filter_cons_of_pos hstake, supportAll_cons hfirst, hothers]
      cases supportAll winner cutoff between rest with
      | error => rfl
      | ok after =>
        simp only [Except.map, List.filter_cons_of_pos (hfunded.trans hstake)]
    | false =>
      have hstay : v' = v ∧ between = backed := by
        split at hfirst
        · next hbacks =>
          rw [hv.support_of_unfunded hstake hnew hbacks hcutoff hle] at hfirst
          exact Prod.mk.inj (Except.ok.inj hfirst).symm
        · exact Prod.mk.inj (Except.ok.inj hfirst).symm
      obtain ⟨rfl, rfl⟩ := hstay
      rw [List.filter_cons_of_neg (by simp [hstake]), hothers]
      cases supportAll winner cutoff between rest with
      | error => rfl
      | ok after =>
        simp only [Except.map, List.filter_cons_of_neg (p := funded) (a := v') (by simp [hstake])]

end Elector

open Elector

/-- So can they be left out of a pass of balancing. -/
theorem pass_funded {elected : List (Fin n)} (hnd : elected.Nodup) (tolerance : Int)
    {electors : List (Elector n)} (h : ∀ v ∈ electors, v.Honest elected) {largest : Int}
    (hlargest : 0 ≤ largest) {backed : Tally n} (hback : ∀ c, handed electors c ≤ backed.get c) :
    pass elected tolerance largest backed (electors.filter funded) =
      { pass elected tolerance largest backed electors with
        electors := (pass elected tolerance largest backed electors).electors.filter funded } := by
  induction electors generalizing largest backed with
  | nil => rfl
  | cons v rest ih =>
    have ⟨hv, hrest⟩ := List.forall_mem_cons.mp h
    have hle : ∀ c, v.weightOn c ≤ backed.get c := fun c => weightOn_le_of_handed_le h hback c
    obtain ⟨v', between, d, hmove, hmoved⟩ := hv.improved hnd (fun c _ => hle c) tolerance
    have hfunded : v'.funded = v.funded := funded_congr (List.cons.inj hmoved.ballots).1
    cases hstake : v.funded with
    | true =>
      have hothers := ih hrest (hlargest.trans (le_max_left largest d)) (hmoved.handed_le hback)
      rw [List.filter_cons_of_pos hstake, pass_cons hmove, pass_cons hmove, hothers]
      simp only [List.filter_cons_of_pos (hfunded.trans hstake)]
    | false =>
      -- its move sees no difference, so the largest one stays what it is
      have hothers := ih hrest hlargest ((Improved.refl (List.forall_mem_singleton.mpr hv)
        backed).handed_le hback)
      rw [List.filter_cons_of_neg (by simp [hstake]), hothers,
        pass_cons (hv.rebalance_of_unfunded hstake hle tolerance), max_eq_left hlargest]
      simp only [List.filter_cons_of_neg (p := funded) (a := v) (by simp [hstake])]

namespace Graph

/-- The graph with only the electors that have stake. -/
def funded (g : Graph n) : Graph n := { g with electors := g.electors.filter Elector.funded }

@[simp]
theorem elected_funded (g : Graph n) : g.funded.elected = g.elected := rfl

@[simp]
theorem backed_funded (g : Graph n) : g.funded.backed = g.backed := rfl

theorem funded_ofVoters (names : Vector String n) (voters : List Voter) :
    (ofVoters names voters).funded = ofVoters names (voters.filter fun v => 0 < v.stake) := by
  simp only [funded, ofVoters, List.filter_map]
  rfl

theorem approval_funded {g : Graph n} (hbudget : ∀ v ∈ g.electors, 0 ≤ v.budget) (c : Fin n) :
    g.funded.approval c = g.approval c := by
  rw [approval_eq, approval_eq]
  apply sum_map_funded
  intro v hv hno
  rw [budget_of_unfunded (hbudget v hv) hno, ite_self]

theorem approvals_funded {g : Graph n} (hbudget : ∀ v ∈ g.electors, 0 ≤ v.budget) :
    g.funded.approvals = g.approvals := by
  ext c
  rw [get_approvals, get_approvals, approval_funded hbudget]

/-! ## By load -/

theorem freshScore_funded {g : Graph n} (hbudget : ∀ v ∈ g.electors, 0 ≤ v.budget) (c : Fin n) :
    g.funded.freshScore c = g.freshScore c := by
  have hcarried : ((g.funded.electors.filter (·.backs c)).map fun v => v.budget * v.load).sum =
      ((g.electors.filter (·.backs c)).map fun v => v.budget * v.load).sum := by
    rw [sum_map_filter, sum_map_filter]
    apply sum_map_funded
    intro v hv hno
    rw [budget_of_unfunded (hbudget v hv) hno, zero_mul, ite_self]
  rw [freshScore, freshScore, hcarried, approval_funded hbudget]

theorem next?_funded {g : Graph n} (hbudget : ∀ v ∈ g.electors, 0 ≤ v.budget) :
    g.funded.next? = g.next? := by
  have hcontenders : g.funded.contenders = g.contenders := by
    simp only [contenders, approval_funded hbudget]
    rfl
  simp only [next?, hcontenders, freshScore_funded hbudget]

theorem seat_funded {g : Graph n} (hbudget : ∀ v ∈ g.electors, 0 ≤ v.budget) (winner : Fin n) :
    g.funded.seat winner = (g.seat winner).funded := by
  simp only [seat, freshScore_funded hbudget]
  simp only [funded, List.filter_map]
  congr 2
  apply List.filter_congr
  intro v _
  exact (funded_congr (ballot_raiseTo winner (g.freshScore winner) v)).symm

theorem recount_funded {g : Graph n} (hbudget : ∀ v ∈ g.electors, 0 ≤ v.budget) (k : Nat) :
    g.funded.recount k = (g.recount k).funded := by
  induction k generalizing g with
  | zero => rfl
  | succ k ih =>
    rw [recount, recount, next?_funded hbudget]
    cases g.next? with
    | none => rfl
    | some winner =>
      simp only [seat_funded hbudget]
      apply ih
      intro v hv
      obtain ⟨w, hw, rfl⟩ := List.mem_map.mp hv
      rw [budget_congr (ballot_raiseTo winner (g.freshScore winner) w)]
      exact hbudget w hw

/-- Sound graphs with the same winners and the same electors with stake have the same backing. -/
theorem Sound.funded_eq {g h : Graph n} (hg : g.Sound) (hh : h.Sound) (hnames : h.names = g.names)
    (helected : h.elected = g.elected) (helectors : h.electors = g.funded.electors) :
    g.funded = h := by
  have hbacked : h.backed = g.backed := by
    ext c
    rw [hh.backed, hg.backed, helectors]
    apply sum_map_funded
    intro v hv hno
    exact (hg.honest v hv).weightOn_of_unfunded hno c
  obtain ⟨names, backed, elected, electors⟩ := h
  subst hnames helected helectors hbacked
  rfl

theorem phragmen_funded (names : Vector String n) {voters : List Voter}
    (hstake : ∀ v ∈ voters, 0 ≤ v.stake) (seats : Int) :
    ((ofVoters names voters).phragmen seats).funded =
      (ofVoters names (voters.filter fun v => 0 < v.stake)).phragmen seats := by
  have hbudget := fun v hv => ((sound_ofVoters names hstake).honest v hv).budget_nonneg
  have hcount := recount_funded hbudget seats.toNat
  rw [funded_ofVoters] at hcount
  obtain ⟨hsound, hnames, -⟩ := sound_phragmen names hstake seats
  obtain ⟨hsound', hnames', -⟩ := sound_phragmen names
    (fun v hv => hstake v (List.mem_of_mem_filter hv) :
      ∀ v ∈ voters.filter fun v => 0 < v.stake, 0 ≤ v.stake) seats
  apply hsound.funded_eq hsound' (hnames'.trans hnames.symm)
  · rw [phragmen_eq, phragmen_eq, hcount]
    rfl
  · rw [phragmen_eq, phragmen_eq, hcount]
    simp only [splitByLoad, funded, List.filter_map]
    congr 1
    apply List.filter_congr
    intro v _
    exact (funded_splitByLoad _ v).symm

/-! ## Balancing -/

namespace Sound

variable {g : Graph n}

theorem balanceOnce_funded (h : g.Sound) (tolerance : Int) :
    g.funded.balanceOnce tolerance =
      ((g.balanceOnce tolerance).1.funded, (g.balanceOnce tolerance).2) := by
  have hpass := pass_funded h.nodup tolerance h.honest le_rfl fun c => (h.backed c).ge
  simp only [Graph.balanceOnce, Graph.funded, hpass]

theorem balanceFrom_funded (h : g.Sound) (tolerance : Int) (fuel made : Nat) :
    g.funded.balanceFrom tolerance fuel made =
      ((g.balanceFrom tolerance fuel made).1.funded, (g.balanceFrom tolerance fuel made).2) := by
  induction fuel generalizing g made with
  | zero => rfl
  | succ fuel ih =>
    obtain ⟨g', d, honce, hg'⟩ := h.balanceOnce tolerance
    simp only [Graph.balanceFrom, h.balanceOnce_funded, honce]
    split
    · rfl
    · exact ih hg'.sound (made + 1)

theorem balanceIf_funded (h : g.Sound) (balancing : Option BalancingConfig) :
    Election.balanceIf balancing g.funded =
      (Election.balanceIf balancing g).map Graph.funded := by
  cases balancing with
  | none => rfl
  | some config =>
    obtain ⟨g', passes, hbalance, -⟩ := h.balance config
    have hfunded : g.funded.balance config = (g'.funded, .ok passes) := by
      rw [Graph.balance, h.balanceFrom_funded, ← Graph.balance, hbalance]
    simp only [Election.balanceIf, hbalance, hfunded]
    rfl

/-! ## By score -/

theorem highestScored?_funded (h : g.Sound) (approvals : Tally n) :
    g.funded.highestScored? approvals = g.highestScored? approvals := by
  have hcommitted : ∀ c,
      denominator (g.funded.electors.map fun v => (v, v.commitment g.elected g.backed)) c =
        denominator (g.electors.map fun v => (v, v.commitment g.elected g.backed)) c := by
    intro c
    simp only [denominator, List.filter_map, List.map_map, sum_map_filter]
    congr 1
    apply sum_map_funded
    intro v hv hno
    simp only [Function.comp_apply, (h.honest v hv).commitment_of_unfunded hno, ite_self]
  have hscores : g.funded.scores approvals = g.scores approvals := by
    unfold scores
    simp only [elected_funded, backed_funded, hcommitted]
    rfl
  rw [highestScored?, highestScored?, hscores]

theorem insert_funded (h : g.Sound) {winner : Fin n} (hnew : winner ∉ g.elected) {score : Int}
    (hscore : 0 ≤ score) :
    g.funded.insert winner score = (g.insert winner score).map Graph.funded := by
  have hall := supportAll_funded h.honest hnew hscore fun c => (h.backed c).ge
  simp only [Graph.insert, Graph.funded, hall]
  cases supportAll winner score g.backed g.electors <;> rfl

/-- An elector without stake has no assignment. -/
theorem outcome_funded (h : g.Sound) : g.funded.outcome = g.outcome := by
  simp only [outcome, funded, List.filter_map, List.filter_filter]
  congr 2
  apply List.filter_congr
  intro v hv
  cases hstake : v.funded with
  | true => simp [sharesOf]
  | false =>
    have hnone : g.sharesOf v = [] := by
      rw [sharesOf, List.map_eq_nil_iff, List.filter_eq_nil_iff]
      intro e he
      rw [(h.honest v hv).weight_of_unfunded hstake he]
      simp
    simp [hnone]

end Sound

theorem Running.rounds_funded {g : Graph n} {approvals : Tally n} (h : g.Running approvals)
    (balancing : Option BalancingConfig) (k : Nat) :
    g.funded.phragMmsRounds balancing approvals k =
      (g.phragMmsRounds balancing approvals k).map Graph.funded := by
  induction k generalizing g with
  | zero => rfl
  | succ k ih =>
    obtain ⟨hbest, -, hstay⟩ | ⟨winner, score, inserted, next, hbest, hinsert, hbalance, hinserted,
      hnext, -, -, hgo⟩ := h.round_cases balancing
    · rw [phragMmsRounds, h.sound.highestScored?_funded, hbest, hstay]
      rfl
    · obtain ⟨best, hbest', -, hsome⟩ := h.highestScored?
      rw [hbest] at hbest'
      obtain ⟨hnew, -, hscore⟩ := hsome winner score (Except.ok.inj hbest').symm
      rw [phragMmsRounds, h.sound.highestScored?_funded, hbest, hgo, ← ih hnext]
      simp only [bind, Except.bind, h.sound.insert_funded hnew hscore, hinsert, Except.map,
        hinserted.sound.balanceIf_funded, hbalance]

end Graph

/-! ## Elections -/

variable (targets : List String) {voters : List Voter}

theorem seqPhragmen_filter_stake (hstake : ∀ v ∈ voters, 0 ≤ v.stake) (seats : Int)
    (balancing : Option BalancingConfig) :
    seqPhragmen seats targets (voters.filter fun v => 0 < v.stake) balancing =
      seqPhragmen seats targets voters balancing := by
  obtain ⟨hsound, -, -⟩ := Graph.sound_phragmen ⟨targets.toArray, List.size_toArray⟩ hstake seats
  obtain ⟨g, hbalance, hg⟩ := hsound.balanceIf balancing
  rw [seqPhragmen_of_balanceIf hbalance, ← hg.sound.outcome_funded]
  apply seqPhragmen_of_balanceIf
  rw [← Graph.phragmen_funded _ hstake, hsound.balanceIf_funded, hbalance]
  rfl

theorem phragMms_filter_stake (hstake : ∀ v ∈ voters, 0 ≤ v.stake) (seats : Int)
    (balancing : Option BalancingConfig) :
    phragMms seats targets (voters.filter fun v => 0 < v.stake) balancing =
      phragMms seats targets voters balancing := by
  have hrunning := Graph.running_ofVoters ⟨targets.toArray, List.size_toArray⟩ hstake
  obtain ⟨g, hrounds, hfollows, -, -⟩ :=
    hrunning.rounds balancing (Graph.roundBound targets.length seats)
  rw [Graph.phragMms_of_rounds hrounds, ← hfollows.sound.outcome_funded]
  apply Graph.phragMms_of_rounds
  have hbudget := fun v hv => (hrunning.sound.honest v hv).budget_nonneg
  rw [← Graph.funded_ofVoters, Graph.approvals_funded hbudget, hrunning.rounds_funded, hrounds]
  rfl

end StakingElection.Election
