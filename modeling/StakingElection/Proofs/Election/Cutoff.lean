import StakingElection.Proofs.Election.ScoreRounds

/-!
# Stake is pulled down to the score

The winner of a round by score takes stake from the candidates that are backed above its score. It
leaves each of them with no less than the score, rounded down, and does not touch the others
(`Lowered`). Every elector of the winner keeps to this, although it compares the score with the
backing that the electors before it have left (`Elector.Pulled`).

So the winner gets what the others lose and what its electors had not spent
(`Graph.Sound.backed_winner`). That is something unless there are as many edges as units of load: if
its electors had spent everything, and only on candidates up to the score, they would have committed
all of its approval, but for less than a unit on each edge (`Graph.Sound.approval_le_committed`),
and the score shares the approval with one unit of load on top of what is committed.
-/

namespace StakingElection.Election

variable {n : Nat}

/-! ## Coming down to a cutoff -/

/-- The backing of a candidate before and after some of it was pulled, with the cutoff in load
units. -/
structure Lowered (cutoff before after : Int) : Prop where
  le : after ≤ before
  low : before * loadUnit ≤ cutoff → after = before
  high : cutoff < before * loadUnit → cutoff / loadUnit ≤ after

namespace Lowered

variable {cutoff a b c : Int}

theorem refl (cutoff a : Int) : Lowered cutoff a a := by
  refine ⟨le_rfl, fun _ => rfl, fun hcut => ?_⟩
  have hunit : 0 < loadUnit := by decide
  exact Int.le_of_lt_add_one (Int.ediv_lt_of_lt_mul hunit (by linarith))

theorem trans (hab : Lowered cutoff a b) (hbc : Lowered cutoff b c) : Lowered cutoff a c := by
  refine ⟨hbc.le.trans hab.le, fun hlow => ?_, fun hcut => ?_⟩
  · have hb := hab.low hlow
    rw [hbc.low (hb ▸ hlow), hb]
  · by_cases hlow : b * loadUnit ≤ cutoff
    · rw [hbc.low hlow]
      exact hab.high hcut
    · exact hbc.high (not_le.mp hlow)

end Lowered

/-- What an elector leaves of its stake on a candidate above the cutoff: less than all of it, but
enough for the cutoff. -/
theorem pull_bounds {cutoff b w : Int} (hw : 0 < w) (hb : w ≤ b) (hcut : cutoff < b * loadUnit) :
    (w * cutoff).fdiv (loadUnit * b) < w ∧
      cutoff / loadUnit ≤ b - w + (w * cutoff).fdiv (loadUnit * b) := by
  have hunit : 0 < loadUnit := by decide
  have hden : 0 < loadUnit * b := mul_pos hunit (by omega)
  rw [Int.fdiv_eq_ediv_of_nonneg _ hden.le]
  constructor
  · refine Int.ediv_lt_of_lt_mul hden (mul_lt_mul_of_pos_left ?_ hw)
    rwa [mul_comm loadUnit b]
  · have hfloor : cutoff / loadUnit * loadUnit ≤ cutoff := Int.ediv_mul_le _ hunit.ne'
    suffices cutoff / loadUnit - (b - w) ≤ w * cutoff / (loadUnit * b) by omega
    rw [Int.le_ediv_iff_mul_le hden]
    calc (cutoff / loadUnit - (b - w)) * (loadUnit * b)
        = cutoff / loadUnit * loadUnit * b - (b - w) * (b * loadUnit) := by ring
      _ ≤ cutoff * b - (b - w) * cutoff :=
          sub_le_sub (mul_le_mul_of_nonneg_right hfloor (by omega))
            (mul_le_mul_of_nonneg_left hcut.le (by omega))
      _ = w * cutoff := by ring

namespace Elector

variable {elected : List (Fin n)} {winner : Fin n} {cutoff : Int} {v : Elector n}
  {backed backed' : Tally n}

/-! ## One elector -/

theorem Honest.keptOn_eq (h : v.Honest elected) (hnew : winner ∉ elected) {d : Fin n}
    (hd : d ∈ elected) :
    v.keptOn winner cutoff backed d =
      if v.weightOn d = 0 ∨ backed.get d * loadUnit ≤ cutoff then v.weightOn d
      else (v.weightOn d * cutoff).fdiv (loadUnit * backed.get d) := by
  by_cases hbacks : v.backs d
  · obtain ⟨e, he, rfl⟩ := List.mem_map.mp (backs_iff.mp hbacks)
    have hne : e.candidate ≠ winner := fun heq => hnew (heq ▸ hd)
    rw [keptOn_of_mem h.nodup he, weightOn_of_mem h.nodup he, kept]
    simp only [hne, false_or]
  · have hout : d ∉ v.choices elected := fun hin => hbacks (mem_choices.mp hin).2
    rw [h.keptOn_eq_zero hout, weightOn_of_not_backs hbacks, if_pos (Or.inl rfl)]

/-- An elector before and after the winner is supported: it has spent everything if it votes for the
winner, and what it puts on candidates up to the cutoff is untouched. -/
structure Yields (elected : List (Fin n)) (winner : Fin n) (cutoff : Int) (backed : Tally n)
    (v v' : Elector n) : Prop where
  ballot : v'.ballot = v.ballot
  gives : v.backs winner → v'.spent = v.budget
  stays : ¬ v.backs winner → v' = v
  low : ∀ d ∈ elected, backed.get d * loadUnit ≤ cutoff → v'.weightOn d = v.weightOn d

/-- Electors and the backing of the elected candidates, before and after the winner is supported. -/
structure Pulled (elected : List (Fin n)) (winner : Fin n) (cutoff : Int)
    (electors electors' : List (Elector n)) (backed backed' : Tally n) : Prop where
  yields : List.Forall₂ (Yields elected winner cutoff backed) electors electors'
  lowered : ∀ d ∈ elected, Lowered cutoff (backed.get d) (backed'.get d)
  strict : ∀ d ∈ elected, cutoff < backed.get d * loadUnit →
    ∀ v ∈ electors, v.backs winner → 0 < v.weightOn d → backed'.get d < backed.get d

/-- Supporting the winner pulls stake. -/
theorem Honest.pulled_support (h : v.Honest elected) (hnew : winner ∉ elected)
    (hbacks : v.backs winner) (hb : ∀ c, v.weightOn c ≤ backed.get c) {v' : Elector n}
    (hsupport : v.support winner cutoff backed = .ok (v', backed')) :
    Pulled elected winner cutoff [v] [v'] backed backed' := by
  obtain ⟨after, heq, hafter⟩ := h.support_eq hnew cutoff hb
  obtain ⟨rfl, rfl⟩ := Prod.mk.inj (Except.ok.inj (hsupport.symm.trans heq))
  -- on a candidate that is elected already, only what is kept remains
  have hkept : ∀ d ∈ elected, v.weightAfter winner cutoff backed d =
      v.keptOn winner cutoff backed d := by
    intro d hd
    have hne : d ≠ winner := fun heq => hnew (heq ▸ hd)
    rw [weightAfter, if_neg hne, add_zero]
  refine ⟨.cons ⟨ballot_reweigh _ _ v, fun _ => ?_, fun hno => absurd hbacks hno,
    fun d hd hlow => ?_⟩ .nil, fun d hd => ?_, fun d hd hcut _ hw _ hpos => ?_⟩
  · exact (h.append winner).spent_reweigh (h.sum_weightAfter hbacks cutoff backed)
  · rw [h.weightOn_support hbacks, hkept d hd, h.keptOn_eq hnew hd, if_pos (Or.inr hlow)]
  · rw [hafter, hkept d hd, h.keptOn_eq hnew hd]
    split
    · rw [sub_add_cancel]
      exact .refl cutoff _
    · next hpull =>
      rw [not_or, not_le] at hpull
      have hpos : 0 < v.weightOn d := lt_of_le_of_ne (h.weight_nonneg d) (Ne.symm hpull.1)
      obtain ⟨hlt, hhigh⟩ := pull_bounds hpos (hb d) hpull.2
      exact ⟨by omega, fun hlow => absurd hlow (not_le.mpr hpull.2), fun _ => hhigh⟩
  · obtain rfl := List.mem_singleton.mp hw
    have hpull : ¬ (Elector.weightOn _ d = 0 ∨ backed.get d * loadUnit ≤ cutoff) :=
      not_or.mpr ⟨hpos.ne', not_le.mpr hcut⟩
    have hlt := (pull_bounds hpos (hb d) hcut).1
    rw [hafter, hkept d hd, h.keptOn_eq hnew hd, if_neg hpull]
    omega

/-! ## All electors -/

namespace Pulled

theorem nil (backed : Tally n) : Pulled elected winner cutoff [] [] backed backed :=
  ⟨.nil, fun d _ => .refl cutoff _, by simp⟩

theorem of_not_backs (hno : ¬ v.backs winner) (backed : Tally n) :
    Pulled elected winner cutoff [v] [v] backed backed where
  yields := .cons ⟨rfl, fun hbacks => absurd hbacks hno, fun _ => rfl, fun _ _ _ => rfl⟩ .nil
  lowered _ _ := .refl cutoff _
  strict _ _ _ _ hw hbacks := absurd (List.mem_singleton.mp hw ▸ hbacks) hno

/-- One elector after the other. -/
theorem cons {v' : Elector n} {rest rest' : List (Elector n)} {between : Tally n}
    (hv : Pulled elected winner cutoff [v] [v'] backed between)
    (h : Pulled elected winner cutoff rest rest' between backed') :
    Pulled elected winner cutoff (v :: rest) (v' :: rest') backed backed' := by
  refine ⟨?_, fun d hd => (hv.lowered d hd).trans (h.lowered d hd),
    fun d hd hcut w hw hbacks hpos => ?_⟩
  · cases hv.yields with
    | cons hfirst _ =>
      refine .cons hfirst (h.yields.imp fun w w' hw => ⟨hw.ballot, hw.gives, hw.stays, ?_⟩)
      intro d hd hlow
      refine hw.low d hd ?_
      rwa [(hv.lowered d hd).low hlow]
  · have hfirst := (hv.lowered d hd).le
    have hlast := (h.lowered d hd).le
    rcases List.mem_cons.mp hw with rfl | hw
    · have := hv.strict d hd hcut w (List.mem_singleton_self w) hbacks hpos
      omega
    · -- below the cutoff the electors before it have brought the candidate down
      by_cases hlow : between.get d * loadUnit ≤ cutoff
      · have hlt : between.get d < backed.get d :=
          lt_of_mul_lt_mul_right (hlow.trans_lt hcut) (by decide)
        omega
      · have := h.strict d hd (not_le.mp hlow) w hw hbacks hpos
        omega

end Pulled

/-- So does the support of all electors of the winner. -/
theorem pulled_supportAll {electors electors' : List (Elector n)}
    (h : ∀ v ∈ electors, v.Honest elected) (hnew : winner ∉ elected) (hcutoff : 0 ≤ cutoff)
    (hback : ∀ c, handed electors c ≤ backed.get c)
    (hall : supportAll winner cutoff backed electors = .ok (electors', backed')) :
    Pulled elected winner cutoff electors electors' backed backed' := by
  induction electors generalizing backed electors' with
  | nil =>
    obtain ⟨rfl, rfl⟩ := Prod.mk.inj (Except.ok.inj hall)
    exact .nil _
  | cons v rest ih =>
    have ⟨hv, hrest⟩ := List.forall_mem_cons.mp h
    have hb : ∀ c, v.weightOn c ≤ backed.get c := weightOn_le_of_handed_le h hback
    obtain ⟨v', between, hfirst, hmoved⟩ := hv.turn hnew hcutoff hb
    rw [supportAll_cons hfirst] at hall
    have hpulled : Pulled elected winner cutoff [v] [v'] backed between := by
      split at hfirst
      · next hbacks => exact hv.pulled_support hnew hbacks hb hfirst
      · next hno =>
        obtain ⟨rfl, rfl⟩ := Prod.mk.inj (Except.ok.inj hfirst)
        exact .of_not_backs hno _
    cases hothers : supportAll winner cutoff between rest with
    | error f =>
      rw [hothers] at hall
      cases hall
    | ok after =>
      rw [hothers] at hall
      obtain ⟨rfl, rfl⟩ := Prod.mk.inj (Except.ok.inj hall)
      exact hpulled.cons (ih hrest (hmoved.handed_le hback) hothers)

/-! ## What electors have committed -/

/-- Rounding off less than a unit, an edge commits as much as it puts in. -/
theorem weight_le_committed {cutoff w b : Int} (hw : 0 < w) (hb : w ≤ b)
    (hlow : b * loadUnit ≤ cutoff) :
    w * loadUnit * loadUnit ≤ ((w * loadUnit).fdiv b + 1) * cutoff := by
  have hbpos : 0 < b := by omega
  have hwl : 0 < w * loadUnit := mul_pos hw (by decide)
  rw [Int.fdiv_eq_ediv_of_nonneg _ hbpos.le]
  have hfloor : w * loadUnit < (w * loadUnit / b + 1) * b := Int.lt_ediv_add_one_mul_self _ hbpos
  have hnonneg : 0 ≤ w * loadUnit / b := Int.ediv_nonneg hwl.le hbpos.le
  calc w * loadUnit * loadUnit
      ≤ (w * loadUnit / b + 1) * b * loadUnit :=
        mul_le_mul_of_nonneg_right hfloor.le (by decide)
    _ = (w * loadUnit / b + 1) * (b * loadUnit) := by ring
    _ ≤ (w * loadUnit / b + 1) * cutoff := mul_le_mul_of_nonneg_left hlow (by omega)

/-- An elector with stake only on candidates up to the cutoff has committed what it has spent, but
for less than a unit on each edge. -/
theorem Honest.spent_le_commitment (h : v.Honest elected) (hcutoff : 0 ≤ cutoff)
    (hb : ∀ c, v.weightOn c ≤ backed.get c)
    (hlow : ∀ d ∈ elected, 0 < v.weightOn d → backed.get d * loadUnit ≤ cutoff) :
    loadUnit * loadUnit * v.spent ≤ cutoff * (v.commitment elected backed + v.edges.length) := by
  have hlength : (v.edges.length : Int) = (v.edges.map fun _ => 1).sum := by
    simp
  rw [commitment, sum_map_filter, hlength, ← List.sum_map_add, spent, ← List.sum_map_mul_left,
    ← List.sum_map_mul_left]
  refine List.sum_le_sum fun e he => ?_
  have hweight := h.weight_nonneg e.candidate
  have hbacked := hb e.candidate
  have hel := h.idle e.candidate
  have hcut := hlow e.candidate
  rw [weightOn_of_mem h.nodup he] at hweight hbacked hel hcut
  rcases hweight.eq_or_lt with hzero | hpos
  · rw [← hzero, mul_zero, zero_mul, Int.zero_fdiv, ite_self, zero_add, mul_one]
    exact hcutoff
  · have hin : e.candidate ∈ elected := by
      by_contra hout
      exact hpos.ne' (hel hout)
    have hused : (elected.contains e.candidate && (0 : Int) < backed.get e.candidate) = true := by
      simp only [List.contains_iff_mem.mpr hin, Bool.true_and, decide_eq_true_eq]
      omega
    rw [if_pos hused]
    have := weight_le_committed hpos hbacked (hcut hin hpos)
    linarith

end Elector

/-! ## The graph -/

namespace Graph

/-- How many votes there are in the graph. -/
def edgeCount (g : Graph n) : Int := (g.electors.map fun v => (v.edges.length : Int)).sum

/-- What the election of a candidate at a score does to a graph. Its electors spend everything, the
others stay as they are. Candidates that are backed up to the score are untouched, the others keep
at least the score, rounded down. The winner gets all that they lose and all that its electors had
not spent, which is something in a graph with fewer edges than units of load. -/
structure Inserted (g g' : Graph n) (winner : Fin n) (score : Int) : Prop where
  elected : g'.elected = g.elected ++ [winner]
  yields : List.Forall₂ (Elector.Yields g.elected winner score g.backed) g.electors g'.electors
  lowered : ∀ d ∈ g.elected, Lowered score (g.backed.get d) (g'.backed.get d)
  backed : ∀ d ∈ g'.elected, g'.backed.get d = handed g'.electors d
  gained : g'.backed.get winner = ∑ d ∈ g.elected.toFinset, (g.backed.get d - g'.backed.get d) +
    ((g.electors.filter (·.backs winner)).map fun v => v.budget - v.spent).sum
  pos : g.edgeCount < loadUnit → 0 < g'.backed.get winner

/-- All the stake that is handed out backs someone elected. -/
theorem Sound.sum_backed {g : Graph n} (h : g.Sound) :
    ∑ d ∈ g.elected.toFinset, g.backed.get d = (g.electors.map Elector.spent).sum := by
  have hout : ∀ c ∉ g.elected.toFinset, g.backed.get c = 0 := by
    intro c hc
    rw [h.backed]
    exact sum_map_eq_zero fun v hv =>
      (h.honest v hv).idle c fun hin => hc (List.mem_toFinset.mpr hin)
  calc ∑ d ∈ g.elected.toFinset, g.backed.get d
      = ∑ c, handed g.electors c := by
        rw [Finset.sum_subset (Finset.subset_univ _) fun c _ hc => hout c hc]
        exact Finset.sum_congr rfl fun c _ => h.backed c
    _ = (g.electors.map Elector.spent).sum := by
        simp only [handed, sum_sum_map]
        exact congrArg List.sum (List.map_congr_left fun v _ => v.spent_eq_sum.symm)

theorem scoreOf_of_highestScored? {g : Graph n} (h : g.Sound) {approvals : Tally n}
    {winner : Fin n} {score : Int}
    (hbest : g.highestScored? approvals = .ok (some (winner, score))) :
    score = g.scoreOf approvals winner := by
  rw [highestScored?, h.scores_eq] at hbest
  obtain ⟨hin, -⟩ := firstBest?_spec (by simp; omega) (by simp; omega) (Except.ok.inj hbest)
  obtain ⟨c, -, heq⟩ := List.mem_map.mp hin
  obtain ⟨rfl, rfl⟩ := Prod.mk.inj heq
  rfl

/-- The electors of the winner spend what they have left. -/
theorem sum_spent_of_yields {elected : List (Fin n)} {winner : Fin n} {cutoff : Int}
    {backed : Tally n} {electors electors' : List (Elector n)}
    (h : List.Forall₂ (Elector.Yields elected winner cutoff backed) electors electors') :
    (electors'.map Elector.spent).sum = (electors.map Elector.spent).sum +
      ((electors.filter (·.backs winner)).map fun v => v.budget - v.spent).sum := by
  rw [sum_map_filter, ← List.sum_map_add]
  induction h with
  | nil => rfl
  | cons hv _ ih =>
    rw [List.map_cons, List.map_cons, List.sum_cons, List.sum_cons, ih]
    split
    · next hbacks => rw [hv.gives hbacks, add_sub_cancel]
    · next hno => rw [hv.stays hno, add_zero]

/-- What the winner gets: all that is taken, and all that its electors had not spent. -/
theorem Sound.backed_winner {g g' : Graph n} (h : g.Sound) (h' : g'.Sound) {winner : Fin n}
    {score : Int} (hnew : winner ∉ g.elected) (hel : g'.elected = g.elected ++ [winner])
    (hyields : List.Forall₂ (Elector.Yields g.elected winner score g.backed) g.electors
      g'.electors) :
    g'.backed.get winner = ∑ d ∈ g.elected.toFinset, (g.backed.get d - g'.backed.get d) +
      ((g.electors.filter (·.backs winner)).map fun v => v.budget - v.spent).sum := by
  have hset : g'.elected.toFinset = Insert.insert winner g.elected.toFinset := by
    ext c
    simp [hel]
  have hafter := h'.sum_backed
  rw [hset, Finset.sum_insert (by simpa using hnew), sum_spent_of_yields hyields,
    ← h.sum_backed] at hafter
  rw [Finset.sum_sub_distrib]
  omega

/-- What the electors of a candidate have committed. -/
def committed (g : Graph n) (c : Fin n) : Int :=
  ((g.electors.filter (·.backs c)).map fun v => v.commitment g.elected g.backed).sum

theorem denominator_eq (g : Graph n) (c : Fin n) :
    denominator (g.electors.map fun v => (v, v.commitment g.elected g.backed)) c =
      loadUnit + g.committed c := by
  rw [denominator, List.filter_map, List.map_map]
  rfl

theorem Sound.scoreOf_mul_le {g : Graph n} (h : g.Sound) (approvals : Tally n) (c : Fin n) :
    g.scoreOf approvals c * (loadUnit + g.committed c) ≤
      loadUnit * loadUnit * approvals.get c := by
  have hden := h.denominator_pos c
  rw [← denominator_eq, scoreOf, Int.fdiv_eq_ediv_of_nonneg _ hden.le]
  refine (Int.ediv_mul_le _ hden.ne').trans_eq ?_
  ring

/-- If the electors of a candidate have spent everything, and only on candidates up to the score,
they have committed all of its approval, but for what the edges round off. -/
theorem Sound.approval_le_committed {g : Graph n} (h : g.Sound) {c : Fin n} {score : Int}
    (hscore : 0 ≤ score) (hspent : ∀ v ∈ g.electors, v.backs c → v.spent = v.budget)
    (hlow : ∀ v ∈ g.electors, v.backs c → ∀ d ∈ g.elected, 0 < v.weightOn d →
      g.backed.get d * loadUnit ≤ score) :
    loadUnit * loadUnit * g.approval c ≤ score * (g.committed c + g.edgeCount) := by
  have hedges : ((g.electors.filter (·.backs c)).map fun v => (v.edges.length : Int)).sum ≤
      g.edgeCount :=
    sum_map_le_of_sublist List.filter_sublist fun v _ => Int.natCast_nonneg _
  refine le_trans ?_ (mul_le_mul_of_nonneg_left (add_le_add_right hedges _) hscore)
  rw [approval, committed, ← List.sum_map_mul_left, ← List.sum_map_add, ← List.sum_map_mul_left]
  refine List.sum_le_sum fun v hv => ?_
  obtain ⟨hin, hbacks⟩ := List.mem_filter.mp hv
  rw [← hspent v hin hbacks]
  refine (h.honest v hin).spent_le_commitment hscore (fun d => ?_) (hlow v hin hbacks)
  rw [h.backed]
  exact le_sum_map (fun w hw => (h.honest w hw).weight_nonneg d) hin

/-- That takes as many edges as there are load units, if the score is that of the candidate. -/
theorem Running.loadUnit_le_edgeCount {g : Graph n} {approvals : Tally n}
    (h : g.Running approvals) {c : Fin n} (hc : g.approval c ≠ 0)
    (hspent : ∀ v ∈ g.electors, v.backs c → v.spent = v.budget)
    (hlow : ∀ v ∈ g.electors, v.backs c → ∀ d ∈ g.elected, 0 < v.weightOn d →
      g.backed.get d * loadUnit ≤ g.scoreOf approvals c) :
    loadUnit ≤ g.edgeCount := by
  have hscore := h.score_nonneg c
  have hcommitted := h.sound.approval_le_committed hscore hspent hlow
  have hrounded := h.sound.scoreOf_mul_le approvals c
  rw [h.approvals] at hrounded
  have happroved : 0 < loadUnit * loadUnit * g.approval c :=
    mul_pos (by decide) (lt_of_le_of_ne (h.sound.approval_nonneg c) (Ne.symm hc))
  have hpos : 0 < g.scoreOf approvals c := by
    refine lt_of_le_of_ne hscore fun hzero => ?_
    rw [← hzero, zero_mul] at hcommitted
    omega
  have := le_of_mul_le_mul_left (hrounded.trans hcommitted) hpos
  omega

/-- The winner gets something (module doc). -/
theorem Running.backed_winner_pos {g g' : Graph n} {approvals : Tally n} (h : g.Running approvals)
    {winner : Fin n} (hwinner : g.approval winner ≠ 0)
    (hpulled : Elector.Pulled g.elected winner (g.scoreOf approvals winner) g.electors g'.electors
      g.backed g'.backed)
    (hgained : g'.backed.get winner = ∑ d ∈ g.elected.toFinset, (g.backed.get d - g'.backed.get d) +
      ((g.electors.filter (·.backs winner)).map fun v => v.budget - v.spent).sum)
    (hfew : g.edgeCount < loadUnit) : 0 < g'.backed.get winner := by
  have hdrop : ∀ d ∈ g.elected.toFinset, 0 ≤ g.backed.get d - g'.backed.get d := fun d hd =>
    sub_nonneg.mpr (hpulled.lowered d (List.mem_toFinset.mp hd)).le
  have hunspent : ∀ v ∈ g.electors.filter (·.backs winner), 0 ≤ v.budget - v.spent := fun v hv =>
    sub_nonneg.mpr (h.sound.honest v (List.mem_of_mem_filter hv)).spent_le
  have hdrops := Finset.sum_nonneg hdrop
  have hunspents := sum_map_nonneg hunspent
  -- otherwise nothing was taken and nothing was left
  by_contra hle
  refine not_le.mpr hfew (h.loadUnit_le_edgeCount hwinner ?_ ?_)
  · intro v hv hbacks
    have hin : v ∈ g.electors.filter (·.backs winner) := List.mem_filter.mpr ⟨hv, hbacks⟩
    have hone := le_sum_map hunspent hin
    have := hunspent v hin
    omega
  · intro v hv hbacks d hd hpos
    by_contra hcut
    have hlt := hpulled.strict d hd (not_le.mp hcut) v hv hbacks hpos
    have hone := Finset.single_le_sum hdrop (List.mem_toFinset.mpr hd)
    omega

/-- Every round of an election by score takes only what lies above the score of its winner, and
loses nothing of it (module doc). -/
theorem round_inserted (names : Vector String n) {voters : List Voter}
    (hstake : ∀ v ∈ voters, 0 ≤ v.stake) (balancing : Option BalancingConfig) (rounds : Nat)
    {g : Graph n} {winner : Fin n} {score : Int}
    (hrounds : (ofVoters names voters).phragMmsRounds balancing (ofVoters names voters).approvals
      rounds = .ok g)
    (hbest : g.highestScored? (ofVoters names voters).approvals = .ok (some (winner, score))) :
    ∃ g', g.insert winner score = .ok g' ∧ Inserted g g' winner score := by
  obtain ⟨between, heq, -, hrunning, -⟩ :=
    (running_ofVoters names hstake).rounds balancing rounds
  obtain rfl := Except.ok.inj (hrounds.symm.trans heq)
  obtain ⟨best, hbest', -, hsome⟩ := hrunning.highestScored?
  obtain ⟨hnew, happroval, hscore⟩ := hsome _ _ (Except.ok.inj (hbest'.symm.trans hbest))
  obtain ⟨g', hinsert, -, hnext, hel⟩ := hrunning.insert hnew happroval hscore
  have hpulled : Elector.Pulled g.elected winner score g.electors g'.electors g.backed
      g'.backed := by
    cases hall : Elector.supportAll winner score g.backed g.electors with
    | error f =>
      rw [insert, hall] at hinsert
      cases hinsert
    | ok after =>
      rw [insert, hall] at hinsert
      obtain rfl := Except.ok.inj hinsert
      exact Elector.pulled_supportAll hrunning.sound.honest hnew hscore
        (fun c => (hrunning.sound.backed c).ge) hall
  have hgained := hrunning.sound.backed_winner hnext.sound hnew hel hpulled.yields
  refine ⟨g', hinsert, hel, hpulled.yields, hpulled.lowered, fun d _ => hnext.sound.backed d,
    hgained, ?_⟩
  obtain rfl := scoreOf_of_highestScored? hrunning.sound hbest
  exact hrunning.backed_winner_pos happroval hpulled hgained

/-- The second winner takes 5 of the 10 units that an elector has given to the first, and finds 3
that are not spent. -/
theorem round_inserted_of_three_voters :
    let names : Vector String 2 := ⟨#["x", "y"], rfl⟩
    let voters : List Voter := [⟨"a", 10, ["x", "y"]⟩, ⟨"b", 6, ["x"]⟩, ⟨"c", 3, ["y"]⟩]
    let start := ofVoters names voters
    let g : Graph 2 := ⟨names, .ofFn ![16, 0], [0], [⟨"a", 10, 0, [⟨0, 0, 10⟩, ⟨1, 0, 0⟩]⟩,
      ⟨"b", 6, 0, [⟨0, 0, 6⟩]⟩, ⟨"c", 3, 0, [⟨1, 0, 0⟩]⟩]⟩
    (∀ v ∈ voters, 0 ≤ v.stake) ∧ start.phragMmsRounds none start.approvals 1 = .ok g ∧
      g.highestScored? start.approvals = .ok (some (1, 8 * loadUnit)) ∧
      ∃ g', g.insert 1 (8 * loadUnit) = .ok g' ∧ g'.backed = .ofFn ![11, 8] ∧
        Inserted g g' 1 (8 * loadUnit) := by
  intro names voters start g
  have hstake : ∀ v ∈ voters, 0 ≤ v.stake := by decide
  have hrounds : start.phragMmsRounds none start.approvals 1 = .ok g := rfl
  have hbest : g.highestScored? start.approvals = .ok (some (1, 8 * loadUnit)) := rfl
  obtain ⟨g', hinsert, hinserted⟩ := round_inserted names hstake none 1 hrounds hbest
  have hbacked : (g.insert 1 (8 * loadUnit)).map backed = .ok (.ofFn ![11, 8]) := rfl
  rw [hinsert] at hbacked
  exact ⟨hstake, hrounds, hbest, g', hinsert, Except.ok.inj hbacked, hinserted⟩

end Graph

end StakingElection.Election
