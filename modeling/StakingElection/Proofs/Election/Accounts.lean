import StakingElection.Proofs.Election.LoadSplit
import StakingElection.Proofs.Election.ScoreRounds

/-!
# Accounts of stake

Both kinds of election account for every unit of stake (`stake_accounted`). What is handed out comes
from the voters with stake that vote for a winner, one assignment for each of them in their order,
and each assignment is all the stake of its voter (`Assignment.Exhausts`). A winner is backed with
what it is assigned, so the backing of all winners adds up to the stake of those voters
(`Outcome.Accounts`).

At the end of an election, an elector has spent something exactly if it has stake and votes for a
winner (`Graph.Sound.sharesOf_ne_nil_iff`), and then its shares add up to its budget
(`Graph.Sound.exhausts`).
-/

namespace StakingElection

/-- The stake of the voters that name a target. -/
def approvingStake (voters : List Voter) (target : String) : Int :=
  ((voters.filter fun v => target ∈ v.targets).map Voter.stake).sum

namespace Election

variable {n : Nat}

/-- An assignment of all the stake of a voter to winners that it votes for. -/
structure Assignment.Exhausts (winners : List String) (a : Assignment) (v : Voter) : Prop where
  who : a.who = v.id
  positive : ∀ share ∈ a.shares, 0 < share.2
  distinct : (a.shares.map Prod.fst).Nodup
  votes : ∀ share ∈ a.shares, share.1 ∈ winners ∧ share.1 ∈ v.targets
  total_eq : a.total = v.stake

namespace Outcome

/-- Whether a voter has stake and votes for a winner. -/
def represents (o : Outcome) (v : Voter) : Bool :=
  decide (0 < v.stake ∧ ∃ w ∈ o.winners.map Prod.fst, w ∈ v.targets)

/-- The accounts of an election (module doc). -/
structure Accounts (voters : List Voter) (o : Outcome) : Prop where
  distinct : (o.winners.map Prod.fst).Nodup
  assignments : List.Forall₂ (Assignment.Exhausts (o.winners.map Prod.fst)) o.assignments
    (voters.filter o.represents)
  backing : ∀ w ∈ o.winners, w.2 = (o.assignments.map fun a => a.amountTo w.1).sum
  sum_backing :
    (o.winners.map Prod.snd).sum = ((voters.filter o.represents).map Voter.stake).sum

/-! ## The backing of all winners -/

/-- If all that is assigned goes to distinct winners, they are backed with all of it. -/
theorem sum_backing {o : Outcome} (hnd : (o.winners.map Prod.fst).Nodup)
    (hvotes : ∀ a ∈ o.assignments, ∀ share ∈ a.shares, share.1 ∈ o.winners.map Prod.fst)
    (hbacking : ∀ w ∈ o.winners, w.2 = (o.assignments.map fun a => a.amountTo w.1).sum) :
    (o.winners.map Prod.snd).sum = (o.assignments.map Assignment.total).sum := by
  rw [← sum_map_amountTo hnd hvotes, List.map_map]
  exact congrArg List.sum (List.map_congr_left hbacking)

end Outcome

namespace Graph

/-! ## The shares of an elector -/

namespace Sound

variable {g : Graph n} {v : Elector n}

/-- Who hands out anything, if everyone who votes for a winner spends everything. -/
theorem sharesOf_ne_nil_iff (h : g.Sound) (hv : v ∈ g.electors) (hspends : v.Spends g.elected) :
    g.sharesOf v ≠ [] ↔ 0 < v.budget ∧ (v.choices g.elected).Nonempty := by
  have htotal := h.total_sharesOf hv
  constructor
  · intro hne
    obtain ⟨share, hshare⟩ := List.exists_mem_of_ne_nil _ hne
    obtain ⟨hpos, c, hc, -⟩ := h.mem_sharesOf hv hshare
    have hpart : share.2 ≤ Assignment.total ⟨v.who, g.sharesOf v⟩ :=
      le_sum_map (fun s hs => (h.mem_sharesOf hv hs).1.le) hshare
    have hle := (h.honest v hv).spent_le
    exact ⟨by omega, c, hc⟩
  · rintro ⟨hbudget, hchoices⟩ hnil
    rw [hspends hchoices, hnil] at htotal
    exact hbudget.ne htotal

variable {voter : Voter}

/-- A voter is represented exactly if its elector votes for someone elected. -/
theorem represents_iff (h : g.Sound) (hballot : v.ballot = (electorOf g.names voter).ballot) :
    g.outcome.represents voter ↔ 0 < v.budget ∧ (v.choices g.elected).Nonempty := by
  unfold Outcome.represents
  have hbudget : v.budget = voter.stake := Elector.budget_congr hballot
  rw [decide_eq_true_eq, winners_outcome, hbudget]
  refine and_congr_right fun _ => ?_
  constructor
  · rintro ⟨w, hw, hname⟩
    obtain ⟨c, hc, rfl⟩ := List.mem_map.mp hw
    refine ⟨c, Elector.mem_choices.mpr ⟨hc, ?_⟩⟩
    exact (backs_of_ballot hballot).mpr ⟨h.elected_listed c hc, hname⟩
  · rintro ⟨c, hc⟩
    obtain ⟨hel, hbacks⟩ := Elector.mem_choices.mp hc
    exact ⟨_, List.mem_map_of_mem hel, ((backs_of_ballot hballot).mp hbacks).2⟩

/-- What an elector hands out, if it hands out anything, is all the stake of its voter. -/
theorem exhausts (h : g.Sound) (hv : v ∈ g.electors) (hspends : v.Spends g.elected)
    (hballot : v.ballot = (electorOf g.names voter).ballot) (hne : g.sharesOf v ≠ []) :
    Assignment.Exhausts (g.outcome.winners.map Prod.fst) ⟨v.who, g.sharesOf v⟩ voter := by
  obtain ⟨-, hchoices⟩ := (h.sharesOf_ne_nil_iff hv hspends).mp hne
  refine ⟨Elector.who_congr hballot, fun share hshare => (h.mem_sharesOf hv hshare).1,
    h.nodup_sharesOf hv, h.votes_sharesOf hv hballot, ?_⟩
  rw [h.total_sharesOf hv, hspends hchoices]
  exact Elector.budget_congr hballot

end Sound

/-! ## The outcome -/

/-- Electors that spend all or nothing stand for the voters that are represented. -/
theorem Sound.forall₂_assignments {g : Graph n} (h : g.Sound)
    (hspends : ∀ v ∈ g.electors, v.Spends g.elected) {voters : List Voter}
    (hballots : g.ballots = (ofVoters g.names voters).ballots) :
    List.Forall₂ (Assignment.Exhausts (g.outcome.winners.map Prod.fst)) g.outcome.assignments
      (voters.filter g.outcome.represents) := by
  have hpairs : List.Forall₂ (fun a voter => (!a.shares.isEmpty ↔ g.outcome.represents voter) ∧
      (!a.shares.isEmpty → Assignment.Exhausts (g.outcome.winners.map Prod.fst) a voter))
      (g.electors.map fun v => ⟨v.who, g.sharesOf v⟩) voters := by
    rw [List.forall₂_map_left_iff]
    refine ((List.forall₂_and_left g.electors voters).mpr
      ⟨fun v hv => hv, forall₂_electors hballots⟩).imp ?_
    rintro v voter ⟨hv, hballot⟩
    have hshares : (!(g.sharesOf v).isEmpty) ↔ g.sharesOf v ≠ [] := by simp
    rw [hshares, h.represents_iff hballot]
    exact ⟨h.sharesOf_ne_nil_iff hv (hspends v hv), h.exhausts hv (hspends v hv) hballot⟩
  -- both filters keep the same places, those of the voters that are represented
  have hkept := List.rel_filter (fun a voter hpair => hpair.1) hpairs
  refine ((List.forall₂_and_left _ _).mpr ⟨fun a ha => ha, hkept⟩).imp ?_
  rintro a voter ⟨ha, -, hexhausts⟩
  exact hexhausts (List.mem_filter.mp ha).2

/-- The accounts of a graph whose electors spend all or nothing. -/
theorem Sound.accounts {g : Graph n} (h : g.Sound)
    (hspends : ∀ v ∈ g.electors, v.Spends g.elected) {voters : List Voter}
    (hballots : g.ballots = (ofVoters g.names voters).ballots) : g.outcome.Accounts voters := by
  have hassignments := h.forall₂_assignments hspends hballots
  have hbacking : ∀ w ∈ g.outcome.winners,
      w.2 = (g.outcome.assignments.map fun a => a.amountTo w.1).sum := by
    intro w hw
    obtain ⟨c, hc, rfl⟩ := List.mem_map.mp hw
    exact (h.sum_amountTo_outcome hc).symm
  refine ⟨h.nodup_winners, hassignments, hbacking, ?_⟩
  have hvotes : ∀ a ∈ g.outcome.assignments, ∀ share ∈ a.shares,
      share.1 ∈ g.outcome.winners.map Prod.fst :=
    ((List.forall₂_and_left _ _).mp (hassignments.imp fun a voter hexhausts =>
      ⟨fun share hshare => (hexhausts.votes share hshare).1, hexhausts⟩)).1
  have htotals : g.outcome.assignments.map Assignment.total =
      (voters.filter g.outcome.represents).map Voter.stake := by
    rw [← List.forall₂_eq_eq_eq, List.forall₂_map_left_iff, List.forall₂_map_right_iff]
    exact hassignments.imp fun a voter hexhausts => hexhausts.total_eq
  rw [Outcome.sum_backing h.nodup_winners hvotes hbacking, htotals]

end Graph

/-! ## Elections -/

theorem approval_ofVoters_le {names : Vector String n} {voters : List Voter}
    {targets : List String} (hnames : ∀ c, names.get c ∈ targets)
    (hstake : ∀ v ∈ voters, 0 ≤ v.stake)
    (happroving : ∀ t ∈ targets, approvingStake voters t ≤ loadUnit) (c : Fin n) :
    (Graph.ofVoters names voters).approval c ≤ loadUnit := by
  refine le_trans ?_ (happroving _ (hnames c))
  rw [Graph.approval_eq, approvingStake, sum_map_filter, Graph.ofVoters, List.map_map]
  refine List.sum_le_sum fun v hv => ?_
  simp only [Function.comp_apply, decide_eq_true_eq]
  split
  · next hbacks =>
    rw [if_pos (Graph.backs_electorOf.mp hbacks).2]
    exact le_rfl
  · split
    · exact hstake v hv
    · exact le_rfl

/-- Every unit of stake of the voters that are represented is accounted for (module doc), in an
election by load as far as no target is approved by more than a unit of load. -/
theorem stake_accounted (targets : List String) (voters : List Voter)
    (hstake : ∀ v ∈ voters, 0 ≤ v.stake) (seats : Int) (balancing : Option BalancingConfig) :
    ((∀ t ∈ targets, approvingStake voters t ≤ loadUnit) →
      ∃ outcome, seqPhragmen seats targets voters balancing = .ok outcome ∧
        outcome.Accounts voters) ∧
    ∃ outcome, phragMms seats targets voters balancing = .ok outcome ∧
      outcome.Accounts voters := by
  constructor
  · intro happroving
    let names : Vector String targets.length := ⟨targets.toArray, List.size_toArray⟩
    have htargets : ∀ c, names.get c ∈ targets := fun c => List.getElem_mem c.isLt
    have happ := approval_ofVoters_le htargets hstake happroving
    obtain ⟨hsound, hnames, hballots⟩ := Graph.sound_phragmen names hstake seats
    obtain ⟨g, hbalance, hg⟩ := hsound.balanceIf balancing
    refine ⟨g.outcome, seqPhragmen_of_balanceIf hbalance, hg.sound.accounts ?_ ?_⟩
    · exact hg.spends (Graph.spends_phragmen _ hstake seats happ)
    · rw [hg.names, hnames]
      exact hg.ballots.trans hballots
  · obtain ⟨g, hrounds, hfollows, -, -⟩ := (Graph.running_ofVoters _ hstake).rounds balancing _
    refine ⟨g.outcome, Graph.phragMms_of_rounds hrounds, hfollows.sound.accounts ?_ ?_⟩
    · exact hfollows.spends (Graph.spends_ofVoters _ voters)
    · rw [hfollows.names]
      exact hfollows.ballots

theorem stake_accounted_of_four_voters :
    let targets := ["x", "y", "x", "z"]
    let voters : List Voter :=
      [⟨"a", 30, ["x", "x", "w"]⟩, ⟨"b", 0, ["y"]⟩, ⟨"c", 7, ["y", "x"]⟩, ⟨"d", 5, ["w"]⟩]
    (∀ v ∈ voters, 0 ≤ v.stake) ∧ (∀ t ∈ targets, approvingStake voters t ≤ loadUnit) ∧
    (∃ outcome, seqPhragmen 2 targets voters (some ⟨3, 1⟩) = .ok outcome ∧
      outcome.Accounts voters) ∧
    ∃ outcome, phragMms 2 targets voters (some ⟨3, 1⟩) = .ok outcome ∧
      outcome.Accounts voters := by
  intro targets voters
  have hstake : ∀ v ∈ voters, 0 ≤ v.stake := by decide
  have happroving : ∀ t ∈ targets, approvingStake voters t ≤ loadUnit := by decide
  obtain ⟨hload, hscore⟩ := stake_accounted targets voters hstake 2 (some ⟨3, 1⟩)
  exact ⟨hstake, happroving, hload happroving, hscore⟩

end Election

end StakingElection
