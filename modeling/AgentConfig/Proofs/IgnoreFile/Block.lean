import AgentConfig.IgnoreFile
import AgentConfig.Proofs.Hook.Settings
import AgentConfig.Proofs.Text.Find
import AgentConfig.Proofs.Text.Order

namespace AgentConfig.IgnoreFile

open List Text

variable {content before after rest above below blanks entry word : Text}
  {entries parts : List Text}

theorem blockStart_ne_nil : blockStart ≠ [] := by decide

theorem blockEnd_ne_nil : blockEnd ≠ [] := by decide

theorem break_not_mem_blockStart : Letter.char '\n' ∉ blockStart := by
  simp [blockStart, ofString, ofChars]

theorem break_not_mem_blockEnd : Letter.char '\n' ∉ blockEnd := by
  simp [blockEnd, ofString, ofChars]

/-- What stands between the markers of a block. -/
def listing (entries : List Text) : Text :=
  Text.intercalate "\n" ([] :: Text.sort entries.eraseDups) ++ "\n"

theorem intercalate_concat (separator part : Text) (hne : parts ≠ []) :
    Text.intercalate separator (parts ++ [part]) =
      Text.intercalate separator parts ++ separator ++ part := by
  simp [intercalate_append separator hne]

theorem block_eq (entries : List Text) :
    block entries = blockStart ++ listing entries ++ blockEnd := by
  rw [block, listing, intercalate_concat _ _ (by simp)]
  simp [intercalate_cons]

theorem mem_sort_eraseDups : entry ∈ Text.sort entries.eraseDups ↔ entry ∈ entries := by
  rw [Text.sort, mem_mergeSort, mem_eraseDups]

theorem not_infix_listing (hentries : ∀ entry ∈ entries, ¬ blockEnd <:+: entry) :
    ¬ blockEnd <:+: listing entries ++ blockEnd.dropLast := by
  intro hinfix
  rw [listing, ← intercalate_concat _ _ (cons_ne_nil _ _)] at hinfix
  obtain ⟨part, hpart, hinfix⟩ :=
    exists_of_infix_intercalate blockEnd_ne_nil break_not_mem_blockEnd hinfix
  rcases mem_append.mp hpart with hpart | hpart
  · rcases mem_cons.mp hpart with rfl | hentry
    · exact blockEnd_ne_nil (infix_nil.mp hinfix)
    · exact hentries part (mem_sort_eraseDups.mp hentry) hinfix
  · rw [mem_singleton.mp hpart] at hinfix
    exact not_infix_dropLast blockEnd_ne_nil hinfix

theorem splitBlock?_block (hbefore : ¬ blockStart <:+: before ++ blockStart.dropLast)
    (hentries : ∀ entry ∈ entries, ¬ blockEnd <:+: entry) (after : Text) :
    splitBlock? (before ++ block entries ++ after) = some (before, after) := by
  have hstart := splitFirst?_append blockStart_ne_nil hbefore (listing entries ++ blockEnd ++ after)
  have hend := splitFirst?_append blockEnd_ne_nil (not_infix_listing hentries) after
  have htext : before ++ block entries ++ after =
      before ++ blockStart ++ (listing entries ++ blockEnd ++ after) := by
    simp only [block_eq, append_assoc]
  rw [splitBlock?, htext, hstart]
  change (splitFirst? blockEnd (listing entries ++ blockEnd ++ after)).bind _ = _
  rw [hend]
  rfl

/-- What separates a block from the text above it. -/
def gap (content : Text) : Text :=
  if content = [] then "" else if content.getLast? = some (.char '\n') then "\n" else "\n\n"

theorem gap_cases (hne : content ≠ []) : gap content = "\n" ∨ gap content = "\n\n" := by
  rw [gap, if_neg hne]
  split
  · exact .inl rfl
  · exact .inr rfl

theorem not_infix_gap (hne : content ≠ []) (hbreak : .char '\n' ∉ word) (hword : word ≠ [])
    (habove : ¬ word <:+: above) (hbelow : ¬ word <:+: below) :
    ¬ word <:+: above ++ gap content ++ below := by
  have hnone : ¬ word <:+: [] := fun hinfix => hword (infix_nil.mp hinfix)
  rw [append_assoc]
  rcases gap_cases hne with hgap | hgap
  · rw [hgap]
    exact not_infix_append_cons hbreak habove hbelow
  · rw [hgap]
    exact not_infix_append_cons hbreak habove (not_infix_append_cons hbreak hnone hbelow)

theorem mem_gap {l : Letter} (h : l ∈ gap content) : l ∈ ("\n" : Text) := by
  unfold gap at h
  split at h
  · cases h
  · split at h <;> simpa [ofString, ofChars] using h

theorem withBlock_of_none (h : splitBlock? content = none) (entries : List Text) :
    withBlock entries content = content ++ gap content ++ block entries ++ "\n" := by
  rw [withBlock, h, gap]
  by_cases hempty : content = []
  · subst hempty
    rfl
  · rw [if_neg (by simpa using hempty), if_neg hempty]

theorem splitBlock?_of_fresh (h : ¬ blockStart <:+: content) : splitBlock? content = none := by
  rw [splitBlock?, splitFirst?_eq_none_iff.mpr h]
  rfl

/-- The user's text with the block of some entries below it. -/
def withListing (content : Text) (entries : List Text) : Text :=
  content ++ gap content ++ block entries ++ "\n"

theorem splitBlock?_withListing (h : ¬ blockStart <:+: content)
    (hentries : ∀ entry ∈ entries, ¬ blockEnd <:+: entry) :
    splitBlock? (withListing content entries) = some (content ++ gap content, ("\n" : Text)) := by
  have hshort := not_infix_dropLast blockStart_ne_nil
  refine splitBlock?_block ?_ hentries "\n"
  by_cases hne : content = []
  · rw [hne]
    exact hshort
  · exact not_infix_gap hne break_not_mem_blockStart blockStart_ne_nil h hshort

theorem withBlock_withListing (h : ¬ blockStart <:+: content)
    (hentries : ∀ entry ∈ entries, ¬ blockEnd <:+: entry) (new : List Text) :
    withBlock new (withListing content entries) = withListing content new := by
  rw [withBlock, splitBlock?_withListing h hentries]
  rfl

/-- The user's text without the blanks at its end, which a break takes the place of. -/
def cleaned (content : Text) : Text :=
  if content.all isBlank then [] else trimEnd content ++ "\n"

theorem withoutBlock?_withListing (h : ¬ blockStart <:+: content)
    (hentries : ∀ entry ∈ entries, ¬ blockEnd <:+: entry) :
    withoutBlock? (withListing content entries) = some (cleaned content) := by
  have hkept : trimEnd (trimEnd (content ++ gap content) ++ "\n") = trimEnd content := by
    have hbreak : ∀ l ∈ ("\n" : Text), isBlank l = true := by
      simp [ofString, ofChars, isBlank, Letter.code]
    rw [trimEnd_append_blanks content fun l hl => hbreak l (mem_gap hl),
      trimEnd_append_blanks _ hbreak]
    exact rdropWhile_idempotent isBlank content
  have hempty : (trimEnd content).isEmpty = content.all isBlank := by
    rw [Bool.eq_iff_iff, List.isEmpty_iff, List.all_eq_true]
    exact rdropWhile_eq_nil_iff
  rw [withoutBlock?, splitBlock?_withListing h hentries]
  change some (if (trimEnd (_ ++ _)).isEmpty = true then _ else _) = _
  rw [hkept, hempty, cleaned]

/-- A start marker stands in the text, with no end behind it. -/
structure IsOpen (content before rest : Text) : Prop where
  starts : splitFirst? blockStart content = some (before, rest)
  endless : ¬ blockEnd <:+: rest

theorem IsOpen.splitBlock?_eq (h : IsOpen content before rest) : splitBlock? content = none := by
  rw [splitBlock?, h.starts]
  change (splitFirst? blockEnd rest).bind _ = _
  rw [splitFirst?_eq_none_iff.mpr h.endless]
  rfl

theorem splitBlock?_cases (content : Text) :
    (∃ before after, splitBlock? content = some (before, after) ∧
        ¬ blockStart <:+: before ++ blockStart.dropLast) ∨
      ¬ blockStart <:+: content ∨ ∃ before rest, IsOpen content before rest := by
  cases hstart : splitFirst? blockStart content with
  | none => exact .inr (.inl (splitFirst?_eq_none_iff.mp hstart))
  | some parts =>
    obtain ⟨before, rest⟩ := parts
    cases hend : splitFirst? blockEnd rest with
    | none =>
      exact .inr (.inr ⟨before, rest, hstart, splitFirst?_eq_none_iff.mp hend⟩)
    | some parts =>
      refine .inl ⟨before, parts.2, ?_, (splitFirst?_inv hstart).2 blockStart_ne_nil⟩
      rw [splitBlock?, hstart]
      change (splitFirst? blockEnd rest).bind _ = _
      rw [hend]
      rfl

theorem withBlock_withBlock (hentries : ∀ entry ∈ entries, ¬ blockEnd <:+: entry)
    (h : ∀ before rest, ¬ IsOpen content before rest) :
    withBlock entries (withBlock entries content) = withBlock entries content := by
  rcases splitBlock?_cases content with ⟨before, after, hsplit, hbefore⟩ | hfresh | hopen
  · have hfirst : withBlock entries content = before ++ block entries ++ after := by
      rw [withBlock, hsplit]
    rw [hfirst, withBlock, splitBlock?_block hbefore hentries]
  · rw [withBlock_of_none (splitBlock?_of_fresh hfresh)]
    exact withBlock_withListing hfresh hentries entries
  · obtain ⟨before, rest, hopen⟩ := hopen
    exact absurd hopen (h before rest)

theorem exists_listing (entries : List Text) : ∃ more, listing entries = .char '\n' :: more := by
  unfold listing Text.intercalate
  cases Text.sort entries.eraseDups with
  | nil => exact ⟨[], rfl⟩
  | cons first rest => exact ⟨_, rfl⟩

/-- The block that is put below a start marker without an end is taken for the end of that block, so
that what stands between is lost. -/
theorem IsOpen.withBlock_withBlock (h : IsOpen content before rest)
    (hentries : ∀ entry ∈ entries, ¬ blockEnd <:+: entry) :
    withBlock entries (withBlock entries content) = before ++ block entries ++ "\n" := by
  obtain ⟨hcontent, hbefore⟩ := splitFirst?_inv h.starts
  have hne : content ≠ [] := by
    rintro rfl
    cases h.starts
  -- The next end marker is the one of the new block.
  have hbetween :
      ¬ blockEnd <:+: rest ++ gap content ++
        (blockStart ++ listing entries ++ blockEnd.dropLast) := by
    obtain ⟨more, hmore⟩ := exists_listing entries
    have hlisting := not_infix_listing hentries
    rw [hmore] at hlisting ⊢
    refine not_infix_gap hne break_not_mem_blockEnd blockEnd_ne_nil h.endless ?_
    rw [append_assoc]
    refine not_infix_append_cons break_not_mem_blockEnd ?_ fun hwithin =>
      hlisting (hwithin.trans (suffix_cons _ _).isInfix)
    exact mt includes_iff.mpr (by decide)
  have hfirst : withBlock entries content = before ++ blockStart ++
      ((rest ++ gap content ++ (blockStart ++ listing entries)) ++ blockEnd ++ "\n") := by
    rw [withBlock_of_none h.splitBlock?_eq, block_eq]
    nth_rewrite 1 [hcontent]
    simp only [append_assoc]
  have hend := splitFirst?_append blockEnd_ne_nil
    (show ¬ blockEnd <:+:
        rest ++ gap content ++ (blockStart ++ listing entries) ++ blockEnd.dropLast
      by simpa only [append_assoc] using hbetween) "\n"
  have hsplit : splitBlock? (withBlock entries content) = some (before, ("\n" : Text)) := by
    rw [splitBlock?, hfirst, splitFirst?_append blockStart_ne_nil (hbefore blockStart_ne_nil)]
    change (splitFirst? blockEnd _).bind _ = _
    rw [hend]
    rfl
  rw [withBlock, hsplit]

end AgentConfig.IgnoreFile
