import StakingElection.Proofs.Election.Balancing
import StakingElection.Proofs.Election.LoadSplit

/-!
# Fair representation

A coalition of voters with `l` seats' worth of stake that agrees on `l` targets has at least `l`
winners that some of its voters vote for (`seqPhragmen_represents`). The proof counts load. A winner
adds at most one unit to the coalition, and only if it has a vote there (`Count.Coalition.elect`),
while every winner adds almost a unit to all electors (`Count.unit_le_carriedLoad_elect`). A common
target that is left bounds the load that anyone carries (`Count.Steady.slack_backers_le`), and that
is too little for so many winners (`Count.not_underrepresented`).
-/

namespace StakingElection.Election

variable {n : Nat}

/-- The stake of electors together. -/
def budgets (electors : List (Elector n)) : Int := (electors.map Elector.budget).sum

namespace Count

/-! ## Load below a bound -/

/-- What electors could still carry below a bound, by stake. -/
def slack (top : Int) (electors : List (Elector n)) : Int :=
  (electors.map fun v => v.budget * (top - v.load)).sum

theorem slack_eq (top : Int) (electors : List (Elector n)) :
    slack top electors = top * budgets electors - carriedLoad electors := by
  rw [slack, budgets, carriedLoad, eq_sub_iff_add_eq, ← List.sum_map_add, ← List.sum_map_mul_left]
  exact congrArg List.sum (List.map_congr_left fun v _ => by ring)

namespace Steady

variable {s : Count n} {top : Int}

theorem slack_le (h : s.Steady top) {members electors : List (Elector n)}
    (hsub : members.Sublist electors) (hmem : ∀ v ∈ electors, v ∈ s.graph.electors) :
    slack top members ≤ slack top electors :=
  sum_map_le_of_sublist hsub fun v hv =>
    mul_nonneg (h.sound.honest v (hmem v hv)).budget_nonneg
      (sub_nonneg.mpr (h.load_le v (hmem v hv)))

/-- A candidate that is left could be elected, so its electors are short of one more unit. -/
theorem slack_backers_le (h : s.Steady top) {c : Fin n} (hc : c ∈ s.eligible) :
    slack top (s.graph.electors.filter (·.backs c)) ≤ loadUnit := by
  have hscore := mul_le_mul_of_nonneg_right (h.top_le c hc) (h.approval_pos hc).le
  have hspec := (h.score_spec hc).1
  have heq : slack top (s.graph.electors.filter (·.backs c)) =
      top * s.graph.approval c - loadOf s.graph.electors c := by
    rw [slack_eq, budgets, carriedLoad, loadOf, sum_map_filter, sum_map_filter,
      Graph.approval_eq]
  rw [heq]
  linarith

/-- The electors of a winner have no more stake than all electors. -/
theorem approval_le_budgets (h : s.Steady top) (c : Fin n) :
    s.graph.approval c ≤ budgets s.graph.electors :=
  sum_map_le_of_sublist List.filter_sublist fun v hv => (h.sound.honest v hv).budget_nonneg

/-- There is stake where anyone is elected. -/
theorem budgets_pos (h : s.Steady top) (hseats : 1 ≤ s.graph.elected.length) :
    0 < budgets s.graph.electors := by
  obtain ⟨winner, hw⟩ := List.exists_mem_of_length_pos hseats
  have hpos := lt_of_le_of_ne (h.sound.approval_nonneg winner) (Ne.symm (h.approved winner hw))
  exact hpos.trans_le (h.approval_le_budgets winner)

end Steady

/-! ## The load of a coalition -/

/-- The electors of a coalition, with the ballots it had before and at most one unit of load for
each winner that one of them votes for. -/
structure Coalition (ballots : List (Elector n)) (s : Count n) (members : List (Elector n)) :
    Prop where
  sublist : members.Sublist s.graph.electors
  ballots_eq : members.map Elector.ballot = ballots.map Elector.ballot
  carried_le : carriedLoad members ≤
    loadUnit * (s.graph.elected.filter fun c => ballots.any (·.backs c)).length

namespace Coalition

variable {ballots members : List (Elector n)} {s : Count n} {top : Int}

theorem backs_of_all (h : Coalition ballots s members) {c : Fin n}
    (hall : ∀ v ∈ ballots, v.backs c) : ∀ v ∈ members, v.backs c := by
  intro v hv
  have hmem : v.ballot ∈ ballots.map Elector.ballot := h.ballots_eq ▸ List.mem_map_of_mem hv
  obtain ⟨w, hw, heq⟩ := List.mem_map.mp hmem
  rw [← Elector.backs_congr heq]
  exact hall w hw

theorem any_backs (h : Coalition ballots s members) {v : Elector n} (hv : v ∈ members) {c : Fin n}
    (hc : v.backs c) : ballots.any (·.backs c) := by
  have hmem : v.ballot ∈ ballots.map Elector.ballot := h.ballots_eq ▸ List.mem_map_of_mem hv
  obtain ⟨w, hw, heq⟩ := List.mem_map.mp hmem
  exact List.any_eq_true.mpr ⟨w, hw, by rwa [Elector.backs_congr heq]⟩

/-- A candidate that the whole coalition votes for has all its members among its electors. -/
theorem sublist_backers (h : Coalition ballots s members) {c : Fin n}
    (hall : ∀ v ∈ ballots, v.backs c) :
    members.Sublist (s.graph.electors.filter (·.backs c)) := by
  have hself := List.filter_eq_self.mpr (h.backs_of_all hall)
  rw [← hself]
  exact h.sublist.filter _

theorem budgets_eq (h : Coalition ballots s members) : budgets members = budgets ballots :=
  congrArg List.sum (map_congr_ballot Elector.budget (fun _ _ => Elector.budget_congr) h.ballots_eq)

/-- A round adds at most one unit, and nothing without a vote in the coalition. -/
theorem elect (h : Coalition ballots s members) (hs : s.Steady top) {winner : Fin n} {score : Int}
    (hbest : s.leastLoaded? = some (winner, score)) :
    Coalition ballots (s.elect winner score) (members.map (load winner score)) := by
  have hballots : (members.map (load winner score)).map Elector.ballot =
      ballots.map Elector.ballot := by
    rw [List.map_map, ← h.ballots_eq]
    exact List.map_congr_left fun v _ => ballot_load winner score v
  refine ⟨h.sublist.map _, hballots, ?_⟩
  have hold := h.carried_le
  have helected : (s.elect winner score).graph.elected = s.graph.elected ++ [winner] := rfl
  rw [Steady.carriedLoad_map_load, helected, List.filter_append, List.length_append]
  by_cases hany : ballots.any (·.backs winner)
  · have hadded : (members.map fun v => if v.backs winner then v.budget * rise score v
        else 0).sum ≤ loadUnit := by
      refine (sum_map_le_of_sublist h.sublist fun v hv => ?_).trans (hs.rise_elect hbest).1
      split
      · exact mul_nonneg (hs.sound.honest v hv).budget_nonneg (rise_nonneg score v)
      · exact le_rfl
    rw [List.filter_cons, if_pos hany]
    simp only [List.filter_nil, List.length_singleton, Nat.cast_add, Nat.cast_one]
    linarith
  · have hnone : (members.map fun v => if v.backs winner then v.budget * rise score v
        else 0).sum = 0 :=
      sum_map_eq_zero fun v hv => if_neg fun hbacks => hany (h.any_backs hv hbacks)
    rw [List.filter_cons, if_neg hany, hnone]
    simpa using hold

end Coalition

/-- Each winner adds almost one unit to the load of all electors. -/
theorem unit_le_carriedLoad_elect {s : Count n} {top : Int} (hs : s.Steady top) {winner : Fin n}
    {score : Int} (hbest : s.leastLoaded? = some (winner, score)) :
    carriedLoad s.graph.electors + (loadUnit - budgets s.graph.electors + 1) ≤
      carriedLoad (s.elect winner score).graph.electors := by
  have hadded := (hs.rise_elect hbest).2
  have happroval := hs.approval_le_budgets winner
  have hcarried : carriedLoad (s.elect winner score).graph.electors = _ :=
    Steady.carriedLoad_map_load winner score s.graph.electors
  rw [hcarried]
  omega

/-- What a run knows about the load of all electors and that of a coalition. -/
theorem coalition_rounds {ballots : List (Elector n)} {s : Count n} {top : Int}
    (hs : s.Steady top) (hc : Coalition ballots s ballots) (helected : s.graph.elected = [])
    (hcarried : 0 ≤ carriedLoad s.graph.electors) (k : Nat) :
    ∃ last members, (s.rounds k).Steady last ∧ Coalition ballots (s.rounds k) members ∧
      (s.rounds k).graph.elected.length * (loadUnit - budgets (s.rounds k).graph.electors + 1) ≤
        carriedLoad (s.rounds k).graph.electors := by
  refine rounds_induction (P := fun t => ∃ last members, t.Steady last ∧
    Coalition ballots t members ∧
      t.graph.elected.length * (loadUnit - budgets t.graph.electors + 1) ≤
        carriedLoad t.graph.electors) ?_ ⟨top, ballots, hs, hc, by simpa [helected]⟩ k
  rintro t winner score ⟨last, members, ht, htc, htl⟩ hbest
  refine ⟨score, _, (ht.elect hbest).2, htc.elect ht hbest, ?_⟩
  have hbudgets : budgets (t.elect winner score).graph.electors = budgets t.graph.electors :=
    congrArg List.sum (map_congr_ballot Elector.budget (fun _ _ => Elector.budget_congr)
      (ballots_elect t winner score))
  have hlength : (t.elect winner score).graph.elected.length = t.graph.elected.length + 1 :=
    List.length_append
  have hstep := unit_le_carriedLoad_elect ht hbest
  rw [hbudgets, hlength, Nat.cast_add, Nat.cast_one, add_mul, one_mul]
  linarith

/-! ## Counting -/

/-- So many winners do not fit if the coalition has too few of them: here `m` of `k` winners have a
vote in a coalition with the stake `a` of all the stake `b`. -/
theorem not_underrepresented {unit a b k l m top : Int} (ha : 0 < a) (hab : a ≤ b) (hk : 1 ≤ k)
    (hunit : k * b ≤ unit) (hstake : l * b ≤ k * a) (hfew : m < l)
    (hcommon : top * a ≤ unit + m * unit)
    (hload : k * (unit - b + 1) ≤ m * unit + top * (b - a)) : False := by
  have hunit0 : 0 ≤ unit := (mul_nonneg (by omega) (ha.le.trans hab)).trans hunit
  have h1 := mul_le_mul_of_nonneg_left hload ha.le
  have h2 := mul_le_mul_of_nonneg_right hcommon (sub_nonneg.mpr hab)
  have h3 : (m + 1) * b ≤ k * a :=
    (mul_le_mul_of_nonneg_right (Int.add_one_le_of_lt hfew) (ha.le.trans hab)).trans hstake
  have h4 := mul_le_mul_of_nonneg_left h3 hunit0
  have h5 := mul_le_mul_of_nonneg_left hunit ha.le
  have h6 : 0 < a * k := mul_pos ha (by omega)
  linarith

/-- With too few of them elected, one of some candidates is left. -/
theorem exists_left {elected : List (Fin n)} {test : Fin n → Bool} {common : Finset (Fin n)}
    (hall : ∀ c ∈ common, test c) (hfew : (elected.filter test).length < common.card) :
    ∃ c ∈ common, c ∉ elected := by
  by_contra hnone
  push Not at hnone
  have hsub : common ⊆ (elected.filter test).toFinset := fun c hc => by
    rw [List.mem_toFinset, List.mem_filter]
    exact ⟨hnone c hc, hall c hc⟩
  exact absurd ((Finset.card_le_card hsub).trans (List.toFinset_card_le _)) (not_le.mpr hfew)

/-- A coalition with stake for `l` of the winners that agrees on `l` candidates has votes for `l`
winners. -/
theorem Steady.represented {s : Count n} {top : Int} (hs : s.Steady top)
    {ballots members : List (Elector n)} (hc : Coalition ballots s members)
    (hload : s.graph.elected.length * (loadUnit - budgets s.graph.electors + 1) ≤
      carriedLoad s.graph.electors)
    (hseats : 1 ≤ s.graph.elected.length)
    (hunit : s.graph.elected.length * budgets s.graph.electors ≤ loadUnit) {l : Nat}
    (hstake : l * budgets s.graph.electors ≤ s.graph.elected.length * budgets ballots)
    {common : Finset (Fin n)} (hcard : l ≤ common.card)
    (hcommon : ∀ c ∈ common, ∀ v ∈ ballots, v.backs c) :
    l ≤ (s.graph.elected.filter fun c => ballots.any (·.backs c)).length := by
  by_contra hless
  rw [not_le] at hless
  have htotal := hs.budgets_pos hseats
  have hpart : 0 < budgets ballots := by
    have hwant : 0 < (l : Int) * budgets s.graph.electors := mul_pos (by omega) htotal
    by_contra hnone
    have hzero := mul_nonpos_of_nonneg_of_nonpos
      (Int.natCast_nonneg s.graph.elected.length) (not_lt.mp hnone)
    linarith
  obtain ⟨v, hv⟩ : ∃ v, v ∈ ballots := by
    refine List.exists_mem_of_ne_nil _ fun hnil => ?_
    rw [hnil] at hpart
    exact lt_irrefl _ hpart
  obtain ⟨c, hin, hout⟩ := exists_left
    (fun c hc => List.any_eq_true.mpr ⟨v, hv, hcommon c hc v hv⟩) (hless.trans_le hcard)
  have hbackers := hc.sublist_backers (hcommon c hin)
  have happroval : budgets ballots ≤ s.graph.approval c := by
    rw [← hc.budgets_eq]
    exact sum_map_le_of_sublist hbackers fun w hw =>
      (hs.sound.honest w (List.mem_of_mem_filter hw)).budget_nonneg
  have heligible : c ∈ s.eligible := by
    rw [mem_eligible, hs.approvals]
    exact ⟨hout, (hpart.trans_le happroval).ne'⟩
  have hroom := (hs.slack_le hbackers fun w hw => List.mem_of_mem_filter hw).trans
    (hs.slack_backers_le heligible)
  have hrest := hs.slack_le hc.sublist fun _ hw => hw
  have hcarried := hc.carried_le
  simp only [slack_eq, hc.budgets_eq] at hroom hrest
  refine not_underrepresented hpart (happroval.trans (hs.approval_le_budgets c))
    (Int.ofNat_le.mpr hseats) hunit hstake (Int.ofNat_lt.mpr hless)
    (?_ : top * budgets ballots ≤ _) ?_
  · rw [mul_comm _ loadUnit]
    linarith
  · rw [mul_comm _ loadUnit]
    linarith

end Count

/-! ## Voters and targets -/

namespace Graph

variable {names : Vector String n}

/-- The targets that a coalition agrees on, as candidates. -/
theorem exists_common (names : Vector String n) {common : Finset String} {coalition : List Voter}
    (hnames : ∀ t ∈ common, ∃ c, names.get c = t)
    (hvotes : ∀ t ∈ common, ∀ v ∈ coalition, t ∈ v.targets) :
    ∃ candidates : Finset (Fin n), common.card ≤ candidates.card ∧
      ∀ c ∈ candidates, ∀ v ∈ coalition.map (electorOf names), v.backs c := by
  classical
  have hsub : common ⊆ Finset.image names.get {c | Listed names c ∧ names.get c ∈ common} := by
    intro t ht
    obtain ⟨c, rfl⟩ := hnames t ht
    obtain ⟨d, hd⟩ := exists_candidate? names c
    have hget := get_of_candidate? hd
    rw [Finset.mem_image]
    exact ⟨d, by simpa [hget, ht] using listed_of_candidate? hd, hget⟩
  refine ⟨_, (Finset.card_le_card hsub).trans Finset.card_image_le, fun c hc v hv => ?_⟩
  obtain ⟨w, hw, rfl⟩ := List.mem_map.mp hv
  obtain ⟨hlisted, hcommon⟩ := (Finset.mem_filter.mp hc).2
  exact backs_electorOf.mpr ⟨hlisted, hvotes _ hcommon w hw⟩

/-- Winners with a vote in a coalition, as candidates and by name. -/
theorem length_filter_names {g : Graph n} (h : g.Sound) (coalition : List Voter) :
    ((g.elected.map g.names.get).filter fun w => ∃ v ∈ coalition, w ∈ v.targets).length =
      (g.elected.filter fun c => (coalition.map (electorOf g.names)).any (·.backs c)).length := by
  rw [List.filter_map, List.length_map]
  refine congrArg List.length (List.filter_congr fun c hc => ?_)
  rw [Bool.eq_iff_iff, List.any_map, List.any_eq_true]
  simp only [Function.comp_apply, decide_eq_true_eq, backs_electorOf,
    h.elected_listed c hc, true_and]

/-- A coalition before the first round carries no load. -/
theorem coalition_start (names : Vector String n) {voters coalition : List Voter}
    (hsub : coalition.Sublist voters) :
    Count.Coalition (coalition.map (electorOf names)) (Count.start (ofVoters names voters))
      (coalition.map (electorOf names)) := by
  refine ⟨hsub.map _, rfl, ?_⟩
  have hzero : Count.carriedLoad (coalition.map (electorOf names)) = 0 := by
    refine sum_map_eq_zero fun v hv => ?_
    obtain ⟨w, -, rfl⟩ := List.mem_map.mp hv
    exact mul_zero _
  rw [hzero]
  exact mul_nonneg (by decide) (Int.natCast_nonneg _)

theorem budgets_electorOf (names : Vector String n) (voters : List Voter) :
    budgets (voters.map (electorOf names)) = (voters.map Voter.stake).sum := by
  rw [budgets, List.map_map]
  rfl

/-- Fair representation among the candidates. -/
theorem represented_phragmen (names : Vector String n) {voters : List Voter}
    (hstake : ∀ v ∈ voters, 0 ≤ v.stake) {seats : Int} (hseats : 1 ≤ seats)
    (hfull : (((ofVoters names voters).phragmen seats).elected.length : Int) = seats)
    (hunit : seats * (voters.map Voter.stake).sum ≤ loadUnit) {l : Nat}
    {coalition : List Voter} (hsub : coalition.Sublist voters)
    (hshare : l * (voters.map Voter.stake).sum ≤ seats * (coalition.map Voter.stake).sum)
    {common : Finset (Fin n)} (hcard : l ≤ common.card)
    (hcommon : ∀ c ∈ common, ∀ v ∈ coalition.map (electorOf names), v.backs c) :
    l ≤ (((ofVoters names voters).phragmen seats).elected.filter fun c =>
      (coalition.map (electorOf names)).any (·.backs c)).length := by
  have hzero : 0 ≤ Count.carriedLoad (ofVoters names voters).electors := by
    refine sum_map_nonneg fun v hv => ?_
    obtain ⟨w, -, rfl⟩ := List.mem_map.mp hv
    exact (mul_zero _).ge
  obtain ⟨last, members, hs, hc, hload⟩ := Count.coalition_rounds
    (Count.steady_start names hstake) (coalition_start names hsub) rfl hzero (roundBound n seats)
  have hbudgets : budgets
      ((Count.start (ofVoters names voters)).rounds (roundBound n seats)).graph.electors =
        (voters.map Voter.stake).sum := by
    rw [← budgets_electorOf names voters]
    exact congrArg List.sum (map_congr_ballot Elector.budget (fun _ _ => Elector.budget_congr)
      (Count.ballots_rounds (Count.start (ofVoters names voters)) (roundBound n seats)))
  rw [← hfull] at hseats hunit hshare
  rw [← hbudgets] at hunit hshare
  rw [← budgets_electorOf names coalition] at hshare
  exact hs.represented hc hload (Int.ofNat_le.mp hseats) hunit hshare hcard hcommon

end Graph

/-- Fair representation in an election by load that fills its seats: every coalition with stake for
`l` seats that agrees on `l` targets has votes for `l` winners. -/
theorem seqPhragmen_represents (targets : List String) (voters : List Voter)
    (hstake : ∀ v ∈ voters, 0 ≤ v.stake) (seats : Int) (hseats : 1 ≤ seats)
    (balancing : Option BalancingConfig) :
    ∃ outcome, seqPhragmen seats targets voters balancing = .ok outcome ∧
      ((outcome.winners.length : Int) = seats →
        seats * (voters.map Voter.stake).sum ≤ loadUnit →
        ∀ l : Nat, ∀ coalition : List Voter, coalition.Sublist voters →
          l * (voters.map Voter.stake).sum ≤ seats * (coalition.map Voter.stake).sum →
        ∀ common : Finset String, l ≤ common.card → (∀ t ∈ common, t ∈ targets) →
          (∀ t ∈ common, ∀ v ∈ coalition, t ∈ v.targets) →
        l ≤ ((outcome.winners.map Prod.fst).filter fun w =>
          ∃ v ∈ coalition, w ∈ v.targets).length) := by
  obtain ⟨hsound, hnames, -⟩ :=
    Graph.sound_phragmen ⟨targets.toArray, List.size_toArray⟩ hstake seats
  obtain ⟨g, hbalance, hg⟩ := hsound.balanceIf balancing
  refine ⟨g.outcome, ?_, fun hfull hunit l coalition hsub hshare common hcard htargets hvotes => ?_⟩
  · rw [seqPhragmen, hbalance]
    rfl
  · obtain ⟨candidates, hcandidates, hbacks⟩ :=
      Graph.exists_common ⟨targets.toArray, List.size_toArray⟩ (fun t ht => by
        obtain ⟨i, hi, heq⟩ := List.getElem_of_mem (htargets t ht)
        exact ⟨⟨i, hi⟩, heq⟩) hvotes
    have hlength : g.outcome.winners.length = g.elected.length := by
      simp only [Graph.outcome, List.length_map]
    rw [g.winners_outcome, Graph.length_filter_names hg.sound, hg.elected, hg.names, hnames]
    rw [hlength, hg.elected] at hfull
    exact Graph.represented_phragmen _ hstake hseats hfull hunit hsub hshare
      (hcard.trans hcandidates) hbacks

theorem seqPhragmen_represents_of_three_voters :
    let voters : List Voter := [⟨"a", 3, ["x"]⟩, ⟨"b", 2, ["y", "z"]⟩, ⟨"c", 1, ["z", "y"]⟩]
    let targets := ["x", "y", "z"]
    ∃ outcome, (∀ v ∈ voters, 0 ≤ v.stake) ∧
      seqPhragmen 2 targets voters none = .ok outcome ∧ outcome.winners.length = 2 ∧
      2 * (voters.map Voter.stake).sum ≤ loadUnit ∧
      1 * (voters.map Voter.stake).sum ≤ 2 * (voters.tail.map Voter.stake).sum ∧
      1 ≤ ((outcome.winners.map Prod.fst).filter fun w =>
        ∃ v ∈ voters.tail, w ∈ v.targets).length := by
  intro voters targets
  have hstake : ∀ v ∈ voters, 0 ≤ v.stake := by decide
  obtain ⟨outcome, hrun, h⟩ :=
    seqPhragmen_represents targets voters hstake 2 (by decide) none
  have hlength : outcome.winners.length = 2 := by
    have hwinners : (seqPhragmen 2 ["x", "y", "z"]
        [⟨"a", 3, ["x"]⟩, ⟨"b", 2, ["y", "z"]⟩, ⟨"c", 1, ["z", "y"]⟩] none).toOption.map
          (fun o => o.winners.length) = some 2 := by
      decide +kernel
    rw [hrun] at hwinners
    exact Option.some.inj hwinners
  refine ⟨outcome, hstake, hrun, hlength, by decide, by decide, ?_⟩
  exact h (by rw [hlength]; rfl) (by decide) 1 voters.tail (List.tail_sublist _) (by decide)
    {"y", "z"} (by decide) (by decide) (by decide)

end StakingElection.Election
