import Mathlib
import StakingElection.Disk
import StakingElection.Proofs.Journal

/-!
# Files that are written and read again

Opening a file for writing tells the place that its path leads to, once the folders on the way are
there. What is put at that place is what the path leads to from then on (`text?_put`): a file more,
and the folders above it, change nothing about where the other names on the way lead. Opening it
again changes nothing, since no folder on the way is missing any more (`openForWriting_put`).
-/

namespace StakingElection.Disk

variable {d : Disk} {p q : Place} {c : Content} {path : String}

/-! ## Folders and files -/

theorem join_of_ne_nil (root : String) {parts : List String} (h : parts ≠ []) :
    join root parts = root ++ "/".intercalate parts := by
  rw [join, List.isEmpty_eq_false_iff.mpr h, Bool.and_false, if_neg Bool.false_ne_true]

/-- The path to a named place above another one is the shorter one. -/
theorem length_key_lt {n : Nat} (hn : n < p.names.length) (hnamed : p.names.drop (n + 1) ≠ []) :
    (Place.key { p with names := p.names.drop (n + 1) }).length < p.key.length := by
  have htaken : p.names.take (n + 1) ≠ [] := by
    intro h
    have hlength := congrArg List.length h
    rw [List.length_take, List.length_nil] at hlength
    omega
  have hnames : p.names.reverse =
      (p.names.drop (n + 1)).reverse ++ (p.names.take (n + 1)).reverse := by
    rw [← List.reverse_append, List.take_append_drop]
  have hne : p.names.reverse ≠ [] := by simpa using List.ne_nil_of_length_pos (by omega)
  rw [Place.key, Place.key, join_of_ne_nil _ hne, join_of_ne_nil _ (by simpa using hnamed), hnames,
    String.intercalate_append_of_ne_nil (by simpa using hnamed) (by simpa using htaken)]
  simp only [String.length_append]
  have hslash : "/".length = 1 := rfl
  omega

theorem isFolder_withFolder (h : d.isFolder q = true) : (d.withFolder p).isFolder q = true := by
  unfold withFolder
  split
  · exact h
  · unfold isFolder at h ⊢
    rw [Bool.or_eq_true] at h ⊢
    refine h.imp_right fun hmem => ?_
    rw [List.contains_iff_mem] at hmem ⊢
    exact List.mem_cons_of_mem _ hmem

/-- A folder that is made leaves all places alone but those with its path. -/
theorem isFolder_of_withFolder (hkey : p.names.all (· = "..") = false → p.key ≠ q.key)
    (h : (d.withFolder p).isFolder q = true) : d.isFolder q = true := by
  unfold withFolder at h
  split at h
  · exact h
  · next hnew =>
    unfold isFolder at h hnew ⊢
    rw [Bool.or_eq_true] at h hnew ⊢
    refine h.imp_right fun hmem => ?_
    rw [List.contains_iff_mem] at hmem ⊢
    refine (List.mem_cons.mp hmem).resolve_left fun hsame => hkey ?_ hsame.symm
    exact Bool.eq_false_iff.mpr fun hdots => hnew (.inl hdots)

theorem isFolder_foldl (places : List Place) (h : d.isFolder q = true) :
    (places.foldl withFolder d).isFolder q = true := by
  induction places generalizing d with
  | nil => exact h
  | cons p places ih => exact ih (isFolder_withFolder h)

theorem isFolder_of_foldl (places : List Place)
    (hkey : ∀ p ∈ places, p.names.all (· = "..") = false → p.key ≠ q.key)
    (h : (places.foldl withFolder d).isFolder q = true) : d.isFolder q = true := by
  induction places generalizing d with
  | nil => exact h
  | cons p places ih =>
    obtain ⟨hp, hplaces⟩ := List.forall_mem_cons.mp hkey
    exact isFolder_of_withFolder hp (ih hplaces h)

theorem isFolder_put (h : d.isFolder q = true) : (d.put p c).isFolder q = true :=
  isFolder_foldl (placesAbove p) h

/-- A file that is put at a place is not in its own way. -/
theorem isFolder_put_self (h : d.isFolder p = false) : (d.put p c).isFolder p = false := by
  refine Bool.eq_false_iff.mpr fun hput => Bool.eq_false_iff.mp h ?_
  refine isFolder_of_foldl (placesAbove p) ?_ hput
  intro q hq hnamed
  obtain ⟨n, hn, rfl⟩ := List.mem_map.mp hq
  have hne : p.names.drop (n + 1) ≠ [] := by
    intro hnone
    simp [hnone] at hnamed
  have hlt := length_key_lt (List.mem_range.mp hn) hne
  exact fun hsame => hlt.ne (congrArg String.length hsame)

theorem find?_put : (d.put p c).files.find? p.key = some c := by
  rw [put, OrderedMap.find?_insert, if_pos rfl]

theorem isFile_put : (d.put p c).isFile p = true := by
  rw [isFile, OrderedMap.contains, find?_put, Option.isSome_some]

/-! ## Paths -/

/-- A path that leads to a file, or would lead to one, leads to the one that is put there. -/
theorem follow_put {parts : List String} (h : d.follow q parts = .file p ∨
    d.follow q parts = .missing p) : (d.put p c).follow q parts = .file p := by
  induction parts generalizing q with
  | nil =>
    unfold follow at h ⊢
    by_cases hfolder : d.isFolder q = true
    · simp [hfolder] at h
    · have hq : q = p := by
        rw [if_neg hfolder] at h
        split at h <;> simpa using h
      subst hq
      rw [isFolder_put_self (Bool.eq_false_iff.mpr hfolder), if_neg Bool.false_ne_true,
        if_pos isFile_put]
  | cons name parts ih =>
    unfold follow at h ⊢
    by_cases hfolder : d.isFolder q = true
    · rw [if_pos hfolder] at h
      rw [if_pos (isFolder_put hfolder)]
      split at h
      · simp at h
      · next hname =>
        rw [if_neg hname]
        exact ih h
    · rw [if_neg hfolder] at h
      split at h <;> simp at h

theorem target_put (h : d.target path = .file p ∨ d.target path = .missing p) :
    (d.put p c).target path = .file p := by
  unfold target at h ⊢
  split
  · next hlong =>
    simp [hlong] at h
  · next hshort =>
    rw [if_neg hshort] at h
    exact follow_put h

/-- What was opened is a file, or the place for one. -/
theorem target_of_openFile (h : d.openFile path = .ok (p, c)) :
    hasNull path = false ∧ (d.target path = .file p ∨ d.target path = .missing p) := by
  unfold openFile at h
  split at h
  · cases h
  · next hnull =>
    refine ⟨Bool.eq_false_iff.mpr hnull, ?_⟩
    split at h <;> cases h
    · next htarget => exact .inl htarget
    · next htarget => exact .inr htarget

/-- A text that is put where a file was opened for writing is read again under the same path. -/
theorem text?_put {opened : Opened} (h : d.openForWriting path = .ok opened) (text : String) :
    (opened.disk.put opened.place (.text text)).text? path = .ok (some text) := by
  obtain ⟨disk, -, h⟩ := bind_eq_ok_iff_exists.mp h
  obtain ⟨⟨place, content⟩, hopen, h⟩ := bind_eq_ok_iff_exists.mp h
  obtain rfl := Except.ok.inj h
  obtain ⟨hnull, htarget⟩ := target_of_openFile hopen
  have hput : (disk.put place (.text text)).target path = .file place := target_put htarget
  have hleads : (disk.put place (.text text)).leads path = .ok true := by
    rw [leads, hnull, if_neg Bool.false_ne_true, hput]
  have hcontent : (disk.put place (.text text)).content? path = some (.text text) := by
    rw [content?, hput]
    exact find?_put
  rw [text?, hleads, hcontent]
  rfl

theorem text?_of_leads (h : d.leads path = .ok false) : d.text? path = .ok none := by
  rw [text?, h]
  rfl

/-! ## Files that are opened again -/

theorem follow_of_append {parts : List String} {name : String}
    (h : d.follow q (parts ++ [name]) = .file p) : ∃ above, d.follow q parts = .folder above := by
  induction parts generalizing q with
  | nil =>
    rw [List.nil_append, follow] at h
    by_cases hfolder : d.isFolder q = true
    · exact ⟨q, by rw [follow, if_pos hfolder]⟩
    · rw [if_neg hfolder] at h
      split at h <;> cases h
  | cons part parts ih =>
    rw [List.cons_append, follow] at h
    rw [follow]
    by_cases hfolder : d.isFolder q = true
    · rw [if_pos hfolder] at h ⊢
      split at h
      · cases h
      · next hshort =>
        rw [if_neg hshort]
        exact ih h
    · rw [if_neg hfolder] at h
      split at h <;> cases h

theorem makeFolders_of_follow {start folder : Place} {names : List String}
    (h : d.follow start names.reverse = .folder folder) : makeFolders start names d = .ok d := by
  cases names with
  | nil => rfl
  | cons name names =>
    rw [makeFolders]
    simp only [h]

/-- Above a file that is there no folder is missing, so none is made. -/
theorem makeParent_of_target {before made : Disk} (hbefore : before.makeParent path = .ok made)
    (htarget : d.target path = .file p) : d.makeParent path = .ok d := by
  have hfollow : d.follow (.start path) (parts path) = .file p := by
    unfold target at htarget
    split at htarget
    · cases htarget
    · exact htarget
  -- what is checked of the path itself is the same on every disk
  unfold makeParent at hbefore ⊢
  dsimp only at hbefore ⊢
  split at hbefore
  · cases hbefore
  next hnull =>
  split at hbefore
  · cases hbefore
  next hlong =>
  rw [if_neg hnull, if_neg hlong]
  rcases List.eq_nil_or_concat' (parts path) with hnone | ⟨above, name, hparts⟩
  · rw [hnone]
    rfl
  · rw [hparts] at hfollow
    obtain ⟨folder, hfolder⟩ := follow_of_append hfollow
    rw [hparts, List.reverse_append, List.reverse_singleton, List.singleton_append, List.drop_one,
      List.tail_cons]
    exact makeFolders_of_follow (by rwa [List.reverse_reverse])

/-- A file that is put where it was opened for writing is opened there again, and nothing else
changes. -/
theorem openForWriting_put {opened : Opened} (h : d.openForWriting path = .ok opened)
    (c : Content) :
    (opened.disk.put opened.place c).openForWriting path =
      .ok ⟨opened.disk.put opened.place c, opened.place, c⟩ := by
  obtain ⟨disk, hmade, h⟩ := bind_eq_ok_iff_exists.mp h
  obtain ⟨⟨place, content⟩, hopen, h⟩ := bind_eq_ok_iff_exists.mp h
  obtain rfl := Except.ok.inj h
  obtain ⟨hnull, htarget⟩ := target_of_openFile hopen
  have hput : (disk.put place c).target path = .file place := target_put htarget
  have hagain : (disk.put place c).openFile path = .ok (place, c) := by
    rw [openFile, hnull, if_neg Bool.false_ne_true, hput]
    dsimp only
    rw [find?_put, Option.getD_some]
  rw [openForWriting, makeParent_of_target hmade hput]
  exact bind_eq_ok_iff_exists.mpr ⟨_, rfl, bind_eq_ok_iff_exists.mpr ⟨_, hagain, rfl⟩⟩

/-- A text that is read under a path is the one that is in the file. -/
theorem leads_and_textIn_of_text? {text : String} (h : d.text? path = .ok (some text)) :
    d.leads path = .ok true ∧ d.textIn path = text := by
  obtain ⟨leads, hleads, h⟩ := bind_eq_ok_iff_exists.mp h
  cases leads with
  | false => cases h
  | true =>
    refine ⟨hleads, ?_⟩
    simp only [Bool.not_true, Bool.false_eq_true, if_false] at h
    unfold textIn
    cases hcontent : d.content? path with
    | none =>
      rw [hcontent] at h
      cases h
    | some content =>
      rw [hcontent] at h
      cases content with
      | archive a => cases h
      | text s => exact Option.some.inj (Except.ok.inj h)

end StakingElection.Disk
