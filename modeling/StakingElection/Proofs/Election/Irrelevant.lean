import StakingElection.Proofs.Election.AmongRounds
import StakingElection.Proofs.Election.Funded

/-!
# Input that does not matter

A snapshot may hold voters without stake, targets that no voter with stake names, votes for targets
that are not listed, and votes for a target that the voter names already. None of them matters:
however many of these are taken out, one after the other (`Snapshot.Trims`), both kinds of election
come to the same outcome (`Solver.elect_of_trims`).

A voter without stake can be left out of every step (`Solver.elect_filter_stake`), a target that
nobody names moves no other candidate past another (`Solver.elect_sublist`), and the other two kinds
of votes never become edges of the graph (`Graph.electorOf_vote`).
-/

namespace StakingElection

namespace Snapshot

/-- The snapshot without a target, in the list and in the votes. -/
def without (s : Snapshot) (t : String) : Snapshot where
  voters := s.voters.map fun v => { v with targets := v.targets.filter (· ≠ t) }
  targets := s.targets.filter (· ≠ t)

/-- The voters with stake keep all their votes without a target that none of them names. -/
theorem filter_stake_without {s : Snapshot} {t : String}
    (h : ∀ v ∈ s.voters, 0 < v.stake → t ∉ v.targets) :
    (s.without t).voters.filter (fun v => 0 < v.stake) =
      s.voters.filter fun v => 0 < v.stake := by
  rw [without, List.filter_map]
  refine (List.map_congr_left fun v hfunded => ?_).trans (List.map_id _)
  obtain ⟨hv, hpos⟩ := List.mem_filter.mp hfunded
  have hkeep : v.targets.filter (· ≠ t) = v.targets := by
    rw [List.filter_eq_self]
    intro name hname
    apply decide_eq_true
    intro heq
    exact h v hv (of_decide_eq_true hpos) (heq ▸ hname)
  rw [hkeep]
  rfl

/-- One entry is taken out: a voter without stake, a target that no voter with stake names, or a
vote for a target that is not listed or that the voter names further in front as well. -/
inductive Trims : Snapshot → Snapshot → Prop
  | voter (targets : List String) (before after : List Voter) (v : Voter) (h : v.stake = 0) :
      Trims ⟨before ++ v :: after, targets⟩ ⟨before ++ after, targets⟩
  | target {s : Snapshot} (t : String) (h : ∀ v ∈ s.voters, 0 < v.stake → t ∉ v.targets) :
      Trims s (s.without t)
  | vote (targets : List String) (before after : List Voter) (id : String) (stake : Int)
      (votes rest : List String) (t : String) (h : t ∉ targets ∨ t ∈ votes) :
      Trims ⟨before ++ ⟨id, stake, votes ++ t :: rest⟩ :: after, targets⟩
        ⟨before ++ ⟨id, stake, votes ++ rest⟩ :: after, targets⟩

namespace Trims

variable {s s' : Snapshot}

theorem nodup_targets (h : Trims s s') (hdistinct : s.targets.Nodup) : s'.targets.Nodup := by
  cases h with
  | voter => exact hdistinct
  | target => exact hdistinct.filter _
  | vote => exact hdistinct

theorem stake_nonneg (h : Trims s s') (hstake : ∀ v ∈ s.voters, 0 ≤ v.stake) :
    ∀ v ∈ s'.voters, 0 ≤ v.stake := by
  cases h with
  | voter =>
    rw [List.forall_mem_append, List.forall_mem_cons] at hstake
    exact List.forall_mem_append.mpr ⟨hstake.1, hstake.2.2⟩
  | target t _ =>
    intro w hw
    obtain ⟨v, hv, rfl⟩ := List.mem_map.mp hw
    exact hstake v hv
  | vote =>
    rw [List.forall_mem_append, List.forall_mem_cons] at hstake
    exact List.forall_mem_append.mpr ⟨hstake.1, List.forall_mem_cons.mpr hstake.2⟩

end Trims

end Snapshot

namespace Election

/-! ## Votes that become no edges -/

namespace Graph

variable {n : Nat} {names : Vector String n}

theorem candidate?_eq_none {targets : List String} (hnames : ∀ c, names.get c ∈ targets)
    {name : String} (hname : name ∉ targets) : candidate? names name = none := by
  rw [candidate?, List.find?_eq_none]
  intro c _ hc
  exact hname (of_decide_eq_true hc ▸ hnames c)

/-- A vote for a name that is not listed, or for one that stands further in front, is no edge. -/
theorem electorOf_vote (id : String) (stake : Int) {votes : List String} {name : String}
    (h : candidate? names name = none ∨ name ∈ votes) (rest : List String) :
    electorOf names ⟨id, stake, votes ++ name :: rest⟩ =
      electorOf names ⟨id, stake, votes ++ rest⟩ := by
  have hvotes : ((votes ++ name :: rest).filterMap (candidate? names)).eraseDups =
      ((votes ++ rest).filterMap (candidate? names)).eraseDups := by
    rw [List.filterMap_append, List.filterMap_append]
    cases hname : candidate? names name with
    | none => rw [List.filterMap_cons_none hname]
    | some c =>
      rw [List.filterMap_cons_some hname]
      apply eraseDups_append_cons
      rcases h with hnone | hin
      · rw [hnone] at hname
        cases hname
      · exact List.mem_filterMap.mpr ⟨name, hin, hname⟩
  rw [electorOf, electorOf, hvotes]

end Graph

/-! ## Elections -/

namespace Solver

theorem elect_filter_stake (targets : List String) {voters : List Voter}
    (hstake : ∀ v ∈ voters, 0 ≤ v.stake) (method : Method) (seats : Int)
    (balancing : Option BalancingConfig) :
    elect method seats ⟨voters.filter fun v => 0 < v.stake, targets⟩ balancing =
      elect method seats ⟨voters, targets⟩ balancing := by
  cases method with
  | seqPhragmen =>
    rw [elect, elect, seqPhragmen_filter_stake targets hstake]
  | phragMms =>
    rw [elect, elect, phragMms_filter_stake targets hstake]

theorem elect_sublist {targets kept : List String} {voters : List Voter}
    (hdistinct : targets.Nodup) (hkept : kept.Sublist targets)
    (hnamed : ∀ v ∈ voters, ∀ t ∈ v.targets, t ∈ targets → t ∈ kept)
    (hstake : ∀ v ∈ voters, 0 ≤ v.stake) (method : Method) (seats : Int)
    (balancing : Option BalancingConfig) :
    elect method seats ⟨voters, kept⟩ balancing =
      elect method seats ⟨voters, targets⟩ balancing := by
  cases method with
  | seqPhragmen =>
    rw [elect, elect, seqPhragmen_sublist hdistinct hkept hnamed hstake]
  | phragMms =>
    rw [elect, elect, phragMms_sublist hdistinct hkept hnamed hstake]

/-- Only the electors of the voters matter. -/
theorem elect_congr {targets : List String} {voters voters' : List Voter}
    (h : voters'.map (Graph.electorOf ⟨targets.toArray, List.size_toArray⟩) =
      voters.map (Graph.electorOf ⟨targets.toArray, List.size_toArray⟩))
    (method : Method) (seats : Int) (balancing : Option BalancingConfig) :
    elect method seats ⟨voters', targets⟩ balancing =
      elect method seats ⟨voters, targets⟩ balancing := by
  simp only [elect, seqPhragmen, phragMms, Graph.ofVoters, h]

/-- One entry that is taken out. -/
theorem elect_of_trim {s s' : Snapshot} (h : s.Trims s') (hdistinct : s.targets.Nodup)
    (hstake : ∀ v ∈ s.voters, 0 ≤ v.stake) (method : Method) (seats : Int)
    (balancing : Option BalancingConfig) :
    elect method seats s' balancing = elect method seats s balancing := by
  have hstake' := h.stake_nonneg hstake
  cases h with
  | voter targets before after v hv =>
    rw [← elect_filter_stake targets hstake, ← elect_filter_stake targets hstake']
    simp [hv]
  | target t hunnamed =>
    have hwithout := elect_filter_stake (s.without t).targets hstake' method seats balancing
    rw [Snapshot.filter_stake_without hunnamed] at hwithout
    refine hwithout.symm.trans (Eq.trans ?_ (elect_filter_stake s.targets hstake ..))
    apply elect_sublist hdistinct List.filter_sublist
    · intro v hfunded name hname hin
      obtain ⟨hv, hpos⟩ := List.mem_filter.mp hfunded
      refine List.mem_filter.mpr ⟨hin, decide_eq_true ?_⟩
      rintro rfl
      exact hunnamed v hv (of_decide_eq_true hpos) hname
    · intro v hv
      exact hstake v (List.mem_of_mem_filter hv)
  | vote targets before after id stake votes rest t ht =>
    apply elect_congr
    have hnone : Graph.candidate? ⟨targets.toArray, List.size_toArray⟩ t = none ∨ t ∈ votes :=
      ht.imp_left fun hout => Graph.candidate?_eq_none (fun c => List.getElem_mem c.isLt) hout
    rw [List.map_append, List.map_append, List.map_cons, List.map_cons,
      Graph.electorOf_vote id stake hnone]

/-- However many entries are taken out, the winners with their backing and the assignments stay the
same. -/
theorem elect_of_trims (method : Method) (s s' : Snapshot) (hdistinct : s.targets.Nodup)
    (hstake : ∀ v ∈ s.voters, 0 ≤ v.stake) (htrims : Relation.ReflTransGen Snapshot.Trims s s')
    (seats : Int) (balancing : Option BalancingConfig) :
    ∃ outcome, elect method seats s balancing = .ok outcome ∧
      elect method seats s' balancing = .ok outcome := by
  induction htrims using Relation.ReflTransGen.head_induction_on with
  | refl =>
    obtain ⟨g, hrun, -⟩ := elect_ok hstake method seats balancing
    exact ⟨g.outcome, hrun, hrun⟩
  | head hstep _ ih =>
    obtain ⟨outcome, hrun, hrun'⟩ := ih (hstep.nodup_targets hdistinct) (hstep.stake_nonneg hstake)
    rw [elect_of_trim hstep hdistinct hstake] at hrun
    exact ⟨outcome, hrun, hrun'⟩

/-- The target nobody with stake names stands first in the list, so every other one moves up. -/
theorem elect_of_trims_of_four_entries :
    let s : Snapshot := ⟨[⟨"a", 10, ["x", "q", "y", "x"]⟩, ⟨"b", 0, ["w", "y"]⟩,
      ⟨"c", 7, ["z", "y"]⟩, ⟨"d", 0, ["z", "w"]⟩], ["w", "y", "x", "z"]⟩
    let s' : Snapshot := ⟨[⟨"a", 10, ["x", "y"]⟩, ⟨"b", 0, ["y"]⟩, ⟨"c", 7, ["z", "y"]⟩],
      ["y", "x", "z"]⟩
    s.targets.Nodup ∧ (∀ v ∈ s.voters, 0 ≤ v.stake) ∧ Relation.ReflTransGen Snapshot.Trims s s' ∧
    ∃ outcome, elect .phragMms 2 s (some ⟨3, 0⟩) = .ok outcome ∧
      elect .phragMms 2 s' (some ⟨3, 0⟩) = .ok outcome := by
  intro s s'
  have hdistinct : s.targets.Nodup := by decide
  have hstake : ∀ v ∈ s.voters, 0 ≤ v.stake := by decide
  let last : Snapshot := ⟨[⟨"a", 10, ["x", "y"]⟩, ⟨"b", 0, ["w", "y"]⟩, ⟨"c", 7, ["z", "y"]⟩],
    ["w", "y", "x", "z"]⟩
  have hlast : last.Trims s' := by
    have hwithout : s' = last.without "w" := by decide
    rw [hwithout]
    exact .target "w" (by decide)
  have htrims : Relation.ReflTransGen Snapshot.Trims s s' := by
    refine .head (.vote _ [] _ "a" 10 ["x"] ["y", "x"] "q" (.inl (by decide))) ?_
    refine .head (.vote _ [] _ "a" 10 ["x", "y"] [] "x" (.inr (by decide))) ?_
    exact .head (.voter _ [_, _, _] [] ⟨"d", 0, ["z", "w"]⟩ rfl) (.single hlast)
  exact ⟨hdistinct, hstake, htrims,
    elect_of_trims .phragMms s s' hdistinct hstake htrims 2 (some ⟨3, 0⟩)⟩

end Solver

end Election

end StakingElection
