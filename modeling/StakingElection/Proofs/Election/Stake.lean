import StakingElection.Proofs.Election.Ballot
import StakingElection.Proofs.Score

/-!
# Where the stake is

`Graph.Sound` is the invariant of both kinds of election. No elector hands out more than it has, or
anything to a candidate that is not elected (`Elector.Honest`), and a candidate is backed with
exactly what the electors put on it. So each elector hands out what it has spent, in positive shares
to winners that its voter names (`Graph.Sound.votes_sharesOf`, `Graph.Sound.total_sharesOf`), and
the score of the outcome is that of the backing of the winners (`Graph.Sound.evaluate_outcome`).
-/

namespace StakingElection.Election

variable {n : Nat}

/-- What electors put on a candidate together. -/
def handed (electors : List (Elector n)) (c : Fin n) : Int :=
  (electors.map fun v => v.weightOn c).sum

@[simp]
theorem handed_nil (c : Fin n) : handed [] c = 0 := rfl

@[simp]
theorem handed_cons (v : Elector n) (rest : List (Elector n)) (c : Fin n) :
    handed (v :: rest) c = v.weightOn c + handed rest c := rfl

/-- An elector that votes for no one twice, and hands what it has, and no more, to elected
candidates only. -/
structure Elector.Honest (elected : List (Fin n)) (v : Elector n) : Prop where
  nodup : (v.edges.map Edge.candidate).Nodup
  budget_nonneg : 0 ≤ v.budget
  weight_nonneg : ∀ c, 0 ≤ v.weightOn c
  idle : ∀ c, c ∉ elected → v.weightOn c = 0
  spent_le : v.spent ≤ v.budget

/-- An elector that spends everything as soon as a candidate that it votes for is elected. -/
def Elector.Spends (elected : List (Fin n)) (v : Elector n) : Prop :=
  (v.choices elected).Nonempty → v.spent = v.budget

theorem handed_nonneg {elected : List (Fin n)} {electors : List (Elector n)}
    (h : ∀ v ∈ electors, v.Honest elected) (c : Fin n) : 0 ≤ handed electors c :=
  sum_map_nonneg fun v hv => (h v hv).weight_nonneg c

/-- The stake of an elector counts in the backing of its candidates. -/
theorem weightOn_le_of_handed_le {elected : List (Fin n)} {v : Elector n}
    {rest : List (Elector n)} {backed : Tally n} (h : ∀ w ∈ v :: rest, w.Honest elected)
    (hback : ∀ c, handed (v :: rest) c ≤ backed.get c) (c : Fin n) :
    v.weightOn c ≤ backed.get c := by
  have h1 := hback c
  have h2 := handed_nonneg (List.forall_mem_cons.mp h).2 c
  rw [handed_cons] at h1
  omega

namespace Elector.Honest

open Elector

variable {elected : List (Fin n)} {v : Elector n}

theorem edge_nonneg (h : v.Honest elected) {e : Edge n} (he : e ∈ v.edges) : 0 ≤ e.weight := by
  rw [← weightOn_of_mem h.nodup he]
  exact h.weight_nonneg _

theorem weightOn_eq_zero (h : v.Honest elected) {c : Fin n} (hc : c ∉ v.choices elected) :
    v.weightOn c = 0 := by
  rw [mem_choices, not_and_or] at hc
  rcases hc with hc | hc
  · exact h.idle c hc
  · exact weightOn_of_not_backs hc

/-- Everything an elector spends goes to its elected candidates. -/
theorem spent_eq_sum_choices (h : v.Honest elected) :
    v.spent = ∑ c ∈ v.choices elected, v.weightOn c :=
  spent_eq_of_idle fun _ => h.weightOn_eq_zero

theorem weightOn_reweigh_eq (h : v.Honest elected) (weight : Fin n → Int) (c : Fin n) :
    (v.reweigh elected weight).weightOn c = if c ∈ v.choices elected then weight c else 0 := by
  rw [Elector.weightOn_reweigh h.nodup]
  split
  · rfl
  · next hc => exact h.weightOn_eq_zero hc

/-- The budget, handed out in another way. -/
theorem spent_reweigh (h : v.Honest elected) {weight : Fin n → Int}
    (htotal : ∑ c ∈ v.choices elected, weight c = v.budget) :
    (v.reweigh elected weight).spent = (v.reweigh elected weight).budget := by
  have hchoices := choices_congr (ballot_reweigh elected weight v) elected
  rw [spent_eq_of_idle fun c hc => ?_, hchoices, budget_congr (ballot_reweigh elected weight v),
    ← htotal]
  · exact Finset.sum_congr rfl fun c hc => by rw [h.weightOn_reweigh_eq, if_pos hc]
  · rw [h.weightOn_reweigh_eq, if_neg (hchoices ▸ hc)]

theorem reweigh (h : v.Honest elected) {weight : Fin n → Int}
    (hweight : ∀ c ∈ v.choices elected, 0 ≤ weight c)
    (htotal : ∑ c ∈ v.choices elected, weight c = v.budget) :
    (v.reweigh elected weight).Honest elected := by
  refine ⟨?_, ?_, fun c => ?_, fun c hc => ?_, (h.spent_reweigh htotal).le⟩
  · rw [edges_congr (ballot_reweigh elected weight v)]
    exact h.nodup
  · rw [budget_congr (ballot_reweigh elected weight v)]
    exact h.budget_nonneg
  · rw [h.weightOn_reweigh_eq]
    split
    · next hc => exact hweight c hc
    · exact le_rfl
  · rw [h.weightOn_reweigh_eq, if_neg fun hin => hc (mem_choices.mp hin).1]

end Elector.Honest

/-! ## Moving stake -/

/-- Electors, and the backing of the candidates, before and after some of the stake was moved and
maybe another candidate elected. -/
structure Shifted (elected elected' : List (Fin n)) (electors electors' : List (Elector n))
    (backed backed' : Tally n) : Prop where
  ballots : electors'.map Elector.ballot = electors.map Elector.ballot
  honest : ∀ v ∈ electors', v.Honest elected'
  spends : (∀ v ∈ electors, v.Spends elected) → ∀ v ∈ electors', v.Spends elected'
  backing : ∀ c, backed'.get c - handed electors' c = backed.get c - handed electors c

namespace Shifted

variable {elected elected' : List (Fin n)}

theorem nil (backed : Tally n) : Shifted elected elected' [] [] backed backed :=
  ⟨rfl, by simp, by simp, fun _ => rfl⟩

theorem singleton {v v' : Elector n} {backed backed' : Tally n} (hballot : v'.ballot = v.ballot)
    (hhonest : v'.Honest elected') (hspends : v.Spends elected → v'.Spends elected')
    (hbacking : ∀ c, backed'.get c - v'.weightOn c = backed.get c - v.weightOn c) :
    Shifted elected elected' [v] [v'] backed backed' where
  ballots := congrArg (fun b => [b]) hballot
  honest := List.forall_mem_singleton.mpr hhonest
  spends hs := List.forall_mem_singleton.mpr (hspends (List.forall_mem_singleton.mp hs))
  backing c := by simpa using hbacking c

/-- One elector after the other. -/
theorem cons {v v' : Elector n} {rest rest' : List (Elector n)} {backed between backed' : Tally n}
    (hv : Shifted elected elected' [v] [v'] backed between)
    (h : Shifted elected elected' rest rest' between backed') :
    Shifted elected elected' (v :: rest) (v' :: rest') backed backed' where
  ballots := by
    have hballot : v'.ballot = v.ballot := List.cons.inj hv.ballots |>.1
    rw [List.map_cons, List.map_cons, hballot, h.ballots]
  honest := List.forall_mem_cons.mpr ⟨hv.honest v' List.mem_cons_self, h.honest⟩
  spends hs :=
    have ⟨hhead, htail⟩ := List.forall_mem_cons.mp hs
    List.forall_mem_cons.mpr
      ⟨hv.spends (List.forall_mem_singleton.mpr hhead) v' List.mem_cons_self, h.spends htail⟩
  backing c := by
    have h1 := hv.backing c
    have h2 := h.backing c
    simp only [handed_cons, handed_nil] at h1 ⊢
    omega

/-- After a move of the first elector, the others still count in the backing. -/
theorem handed_le {v v' : Elector n} {rest : List (Elector n)} {backed between : Tally n}
    (hv : Shifted elected elected' [v] [v'] backed between)
    (hback : ∀ c, handed (v :: rest) c ≤ backed.get c) (c : Fin n) :
    handed rest c ≤ between.get c := by
  have h1 := hback c
  have h2 := hv.backing c
  have h3 := (hv.honest v' List.mem_cons_self).weight_nonneg c
  simp only [handed_cons, handed_nil] at h1 h2
  omega

end Shifted

namespace Graph

theorem winners_outcome (g : Graph n) :
    g.outcome.winners.map Prod.fst = g.elected.map g.names.get := by
  simp only [outcome, List.map_map]
  rfl

/-- The score of the backing of the winners. -/
def standing (g : Graph n) : Score := .ofTotals (g.elected.map g.backed.get)

/-- The invariant of both kinds of election (module doc). -/
structure Sound (g : Graph n) : Prop where
  nodup : g.elected.Nodup
  elected_listed : ∀ c ∈ g.elected, Listed g.names c
  backs_listed : ∀ v ∈ g.electors, ∀ c, v.backs c → Listed g.names c
  honest : ∀ v ∈ g.electors, v.Honest g.elected
  backed : ∀ c, g.backed.get c = handed g.electors c

/-- Before the first round nobody has handed out anything. -/
theorem sound_ofVoters (names : Vector String n) {voters : List Voter}
    (h : ∀ v ∈ voters, 0 ≤ v.stake) : (ofVoters names voters).Sound := by
  refine ⟨List.nodup_nil, by simp [ofVoters], ?_, ?_, ?_⟩
  · intro v hv c hc
    obtain ⟨w, -, rfl⟩ := List.mem_map.mp hv
    exact (backs_electorOf.mp hc).1
  · intro v hv
    obtain ⟨w, hw, rfl⟩ := List.mem_map.mp hv
    refine ⟨nodup_electorOf names w, h w hw, fun c => (weightOn_electorOf w c).ge,
      fun c _ => weightOn_electorOf w c, ?_⟩
    rw [Elector.spent_eq_sum]
    simp only [weightOn_electorOf, Finset.sum_const_zero]
    exact h w hw
  · intro c
    refine (Tally.get_zero c).trans (sum_map_eq_zero fun v hv => ?_).symm
    obtain ⟨w, -, rfl⟩ := List.mem_map.mp hv
    exact weightOn_electorOf w c

/-- What every step of an election keeps. -/
structure Follows (g h : Graph n) : Prop where
  names : h.names = g.names
  ballots : h.ballots = g.ballots
  sound : h.Sound
  spends : (∀ v ∈ g.electors, v.Spends g.elected) → ∀ v ∈ h.electors, v.Spends h.elected

theorem Follows.trans {g h k : Graph n} (hgh : Follows g h) (hhk : Follows h k) : Follows g k :=
  ⟨hhk.names.trans hgh.names, hhk.ballots.trans hgh.ballots, hhk.sound,
    fun hs => hhk.spends (hgh.spends hs)⟩

namespace Sound

variable {g : Graph n}

theorem follows_refl (h : g.Sound) : Follows g g := ⟨rfl, rfl, h, id⟩

theorem backed_nonneg (h : g.Sound) (c : Fin n) : 0 ≤ g.backed.get c := by
  rw [h.backed]
  exact handed_nonneg h.honest c

theorem approval_nonneg (h : g.Sound) (c : Fin n) : 0 ≤ g.approval c := by
  rw [approval_eq]
  refine sum_map_nonneg fun v hv => ?_
  split
  · exact (h.honest v hv).budget_nonneg
  · exact le_rfl

/-- Other electors with the same ballots vote for listed candidates too. -/
theorem backs_listed_of_ballots (h : g.Sound) {electors : List (Elector n)}
    (hb : electors.map Elector.ballot = g.electors.map Elector.ballot) :
    ∀ v ∈ electors, ∀ c, v.backs c → Listed g.names c := by
  intro v hv c hc
  have hmem : v.ballot ∈ g.electors.map Elector.ballot := hb ▸ List.mem_map_of_mem hv
  obtain ⟨w, hw, heq⟩ := List.mem_map.mp hmem
  exact h.backs_listed w hw c (by rwa [Elector.backs_congr heq])

/-- A sound graph stays sound when stake is moved. -/
theorem shifted (h : g.Sound) {elected' : List (Fin n)} {electors' : List (Elector n)}
    {backed' : Tally n} (hnd : elected'.Nodup) (hlisted : ∀ c ∈ elected', Listed g.names c)
    (hs : Shifted g.elected elected' g.electors electors' g.backed backed') :
    Follows g { g with electors := electors', backed := backed', elected := elected' } := by
  refine ⟨rfl, hs.ballots, ⟨hnd, hlisted, h.backs_listed_of_ballots hs.ballots, hs.honest,
    fun c => ?_⟩, hs.spends⟩
  have h1 := hs.backing c
  have h2 := h.backed c
  simp only
  omega

/-- A candidate with approval is voted for by someone, so it is listed. -/
theorem listed_of_approval (h : g.Sound) {c : Fin n} (hc : g.approval c ≠ 0) :
    Listed g.names c := by
  by_contra hno
  refine hc ?_
  rw [approval_eq]
  refine sum_map_eq_zero fun v hv => if_neg fun hbacks => ?_
  exact hno (h.backs_listed v hv c hbacks)

/-! ## What is handed out -/

theorem nodup_winners (h : g.Sound) :
    (g.outcome.winners.map Prod.fst).Nodup := by
  rw [winners_outcome]
  refine h.nodup.map_on fun c hc d hd heq => ?_
  exact (h.elected_listed c hc).injective (h.elected_listed d hd) heq

theorem mem_sharesOf (h : g.Sound) {v : Elector n} (hv : v ∈ g.electors) {share : String × Int}
    (hshare : share ∈ g.sharesOf v) :
    0 < share.2 ∧ ∃ c ∈ v.choices g.elected, share = (g.names.get c, v.weightOn c) := by
  unfold sharesOf at hshare
  obtain ⟨e, he, rfl⟩ := List.mem_map.mp hshare
  obtain ⟨he, htest⟩ := List.mem_filter.mp he
  simp only [Bool.and_eq_true, List.contains_iff_mem, decide_eq_true_eq] at htest
  refine ⟨htest.2, e.candidate, ?_, ?_⟩
  · exact Elector.mem_choices.mpr ⟨htest.1, Elector.backs_iff.mpr (List.mem_map_of_mem he)⟩
  · rw [Elector.weightOn_of_mem (h.honest v hv).nodup he]

/-- What an elector hands out goes to winners that its voter names. -/
theorem votes_sharesOf (h : g.Sound) {v : Elector n} (hv : v ∈ g.electors) {voter : Voter}
    (hballot : v.ballot = (electorOf g.names voter).ballot) :
    ∀ share ∈ g.sharesOf v,
      share.1 ∈ g.outcome.winners.map Prod.fst ∧ share.1 ∈ voter.targets := by
  intro share hshare
  obtain ⟨-, c, hc, rfl⟩ := h.mem_sharesOf hv hshare
  obtain ⟨hel, hbacks⟩ := Elector.mem_choices.mp hc
  exact ⟨winners_outcome g ▸ List.mem_map_of_mem hel, ((backs_of_ballot hballot).mp hbacks).2⟩

/-- The shares leave out only edges without stake. -/
theorem total_sharesOf (h : g.Sound) {v : Elector n} (hv : v ∈ g.electors) :
    Assignment.total ⟨v.who, g.sharesOf v⟩ = v.spent := by
  have hhonest := h.honest v hv
  simp only [Assignment.total, sharesOf, List.map_map, Elector.spent, sum_map_filter]
  refine congrArg List.sum (List.map_congr_left fun e he => ?_)
  simp only [Function.comp_apply, Bool.and_eq_true, List.contains_iff_mem, decide_eq_true_eq]
  split
  · rfl
  · next hout =>
    rcases (hhonest.edge_nonneg he).eq_or_lt with hzero | hpos
    · exact hzero
    · have hidle := hhonest.idle e.candidate fun hel => hout ⟨hel, hpos⟩
      rw [Elector.weightOn_of_mem hhonest.nodup he] at hidle
      exact hidle.symm

theorem nodup_sharesOf (h : g.Sound) {v : Elector n} (hv : v ∈ g.electors) :
    ((g.sharesOf v).map Prod.fst).Nodup := by
  have hnd : ((v.edges.filter fun e => g.elected.contains e.candidate && 0 < e.weight).map
      Edge.candidate).Nodup := (h.honest v hv).nodup.sublist (List.filter_sublist.map _)
  have hnames : (g.sharesOf v).map Prod.fst = ((v.edges.filter fun e =>
      g.elected.contains e.candidate && 0 < e.weight).map Edge.candidate).map g.names.get := by
    unfold sharesOf
    rw [List.map_map, List.map_map]
    rfl
  rw [hnames]
  refine hnd.map_on fun c hc d hd heq => ?_
  have hlisted : ∀ c ∈ (v.edges.filter fun e => g.elected.contains e.candidate &&
      0 < e.weight).map Edge.candidate, Listed g.names c := by
    intro c hc
    obtain ⟨e, he, rfl⟩ := List.mem_map.mp hc
    exact h.backs_listed v hv _
      (Elector.backs_iff.mpr (List.mem_map_of_mem (List.mem_of_mem_filter he)))
  exact (hlisted c hc).injective (hlisted d hd) heq

/-- What an elector's assignment hands to a winner is what it put on it. -/
theorem amountTo_sharesOf (h : g.Sound) {v : Elector n} (hv : v ∈ g.electors) {c : Fin n}
    (hc : c ∈ g.elected) :
    Assignment.amountTo ⟨v.who, g.sharesOf v⟩ (g.names.get c) = v.weightOn c := by
  simp only [Assignment.amountTo, sharesOf, Elector.weightOn, List.filter_map, List.map_map,
    List.filter_filter, sum_map_filter]
  refine congrArg List.sum (List.map_congr_left fun e he => ?_)
  simp only [Function.comp_apply]
  have hbacks : v.backs e.candidate := Elector.backs_iff.mpr (List.mem_map_of_mem he)
  have hname : g.names.get e.candidate = g.names.get c ↔ e.candidate = c :=
    ⟨(h.backs_listed v hv _ hbacks).injective (h.elected_listed c hc), fun heq => by rw [heq]⟩
  have hnonneg := (h.honest v hv).edge_nonneg he
  by_cases heq : e.candidate = c
  · have hin : g.elected.contains e.candidate = true := List.contains_iff_mem.mpr (heq ▸ hc)
    rcases hnonneg.eq_or_lt with hz | hpos
    · simp [← hz]
    · simp [heq, hpos, hc]
  · simp [heq, hname]

/-- A winner is backed with what the assignments hand to it. -/
theorem sum_amountTo_outcome (h : g.Sound) {c : Fin n} (hc : c ∈ g.elected) :
    (g.outcome.assignments.map fun a => a.amountTo (g.names.get c)).sum = g.backed.get c := by
  simp only [outcome, sum_map_filter, List.map_map, h.backed]
  refine congrArg List.sum (List.map_congr_left fun v hv => ?_)
  simp only [Function.comp_apply]
  rw [← h.amountTo_sharesOf hv hc]
  split
  · rfl
  · next hempty =>
    have hnil : g.sharesOf v = [] := by simpa using hempty
    simp [Assignment.amountTo, hnil]

/-- The winners score what they are backed with. -/
theorem evaluate_outcome (h : g.Sound) :
    evaluate (winnerSupports (g.outcome.winners.map Prod.fst) g.outcome.assignments) =
      g.standing := by
  rw [evaluate_winnerSupports, standing, winners_outcome, List.map_map]
  exact congrArg Score.ofTotals (List.map_congr_left fun c hc => h.sum_amountTo_outcome hc)

end Sound

end Graph

end StakingElection.Election
