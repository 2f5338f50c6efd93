import AgentConfig.Proofs.FileTree.Success
import AgentConfig.Proofs.IgnoreFile.Block

namespace AgentConfig.IgnoreFile

open List Outcome FileTree Text

variable {t u v : FileTree} {root : List Text} {content text : Text} {entries : List Text}
  {found : Option Text}

/-- A project directory in which the ignore file, if any, is a file that can be reached. -/
structure IsReachable (t : FileTree) (root : List Text) : Prop where
  wellFormed : t.WellFormed
  root_dir : t.get? root = some .dir
  short : ¬ IsTooLong (location root)
  free : t.get? (location root) ≠ some .dir

/-- The ignore file holds a text, to the byte. -/
structure Holds (t : FileTree) (root : List Text) (text : Text) : Prop extends
    IsReachable t root where
  file : ∃ bytes, bytes? text = some bytes ∧ t.bytesAt (location root) = some bytes

theorem dropLast_location (root : List Text) : (location root).dropLast = root := by
  rw [location, Path.child, dropLast_concat]

theorem isFileName_location (ht : t.WellFormed) (hroot : t.get? root = some .dir) :
    ∀ name ∈ location root, IsFileName name := by
  refine forall_mem_append.mpr ⟨ht.isFileName hroot, ?_⟩
  rw [forall_mem_singleton]
  exact isFileName_of_isPlain (by decide +kernel)

namespace IsReachable

variable (h : IsReachable t root)
include h

theorem locate_eq : t.locate (location root) = .ok (location root) :=
  h.wellFormed.locate_eq_ok h.short (isFileName_location h.wellFormed h.root_dir)
    ((dropLast_location root).symm ▸ h.root_dir)

theorem content?_eq : content? t root =
    match t.bytesAt (location root) with
    | none => .ok none
    | some bytes => ((readText bytes).mapError Failure.undecodable).map some := by
  unfold content?
  cases hget : t.get? (location root) with
  | none =>
    have hexists : t.exists? (location root) = .ok false := by
      simp [FileTree.exists?, FileTree.entry?, h.locate_eq, hget, Except.map]
    simp [hexists, bytesAt, hget, Failure.atPath, Except.mapError, bind, Except.bind, pure,
      Except.pure]
  | some entry =>
    cases entry with
    | dir => exact absurd hget h.free
    | file bytes =>
      have hfile := bytesAt_eq_some_iff.mpr hget
      simp only [h.wellFormed.exists?_eq_true h.short hget, h.wellFormed.readFile_eq h.short hfile,
        hfile, Failure.atPath, Except.mapError, bind, Except.bind, pure, Except.pure, if_true]
      cases readText bytes <;> rfl

theorem exists_write (hchars : text.IsChars) :
    ∃ v, write t root text = .ok v ∧ Holds v root text := by
  obtain ⟨bytes, hbytes⟩ := hchars.exists_bytes
  have hne : location root ≠ [] := by simp [location, Path.child]
  have hother : root ≠ location root := by
    intro heq
    simpa [location, Path.child] using congrArg List.length heq
  refine ⟨t.put (location root) (.file bytes), ?_, ⟨?_, ?_, h.short, ?_⟩, bytes, hbytes, ?_⟩
  · simp [write, Halt.atPath, writeText, hbytes, FileTree.step, writeFile,
      h.locate_eq, h.free, bind, Except.bind, pure, Except.pure, Except.mapError]
  · exact h.wellFormed.put hne (isFileName_location h.wellFormed h.root_dir)
      ((dropLast_location root).symm ▸ h.root_dir) (.inr h.free)
  · rw [get?_put_ne _ _ hother, h.root_dir]
  · simp [get?_put_self _ _ hne]
  · exact bytesAt_eq_some_iff.mpr (get?_put_self _ _ hne)

end IsReachable

theorem isReachable_of_content? (ht : t.WellFormed) (hroot : t.get? root = some .dir)
    (h : content? t root = .ok found) : IsReachable t root := by
  have habove : t.get? (location root).dropLast = some .dir :=
    (dropLast_location root).symm ▸ hroot
  have hproper : Path.AreProper (location root) := fun name hname =>
    (isFileName_location ht hroot name hname).toIsProper
  obtain ⟨isThere, hexists, h⟩ := bind_eq_ok.mp h
  have hexists := mapError_eq_ok.mp hexists
  rcases ht.locate_of_above (isFileName_location ht hroot) habove with hlocate | ⟨hlocate, -⟩
  · refine ⟨ht, hroot, not_isTooLong_of_locate hproper hlocate, fun hdir => ?_⟩
    simp only [FileTree.exists?, FileTree.entry?, hlocate, hdir, Except.map, Option.isSome_some,
      Except.ok.injEq] at hexists
    subst hexists
    obtain ⟨bytes, hread, -⟩ := bind_eq_ok.mp h
    have hfile := readFile_inv hproper (mapError_eq_ok.mp hread)
    rw [bytesAt_of_dir hdir] at hfile
    cases hfile
  · simp [FileTree.exists?, FileTree.entry?, hlocate, Except.map] at hexists

theorem IsReachable.content?_letters (h : IsReachable t root)
    (hcontent : content? t root = .ok found) :
    (found.getD []).IsChars ∧ .char '\r' ∉ found.getD [] := by
  rw [h.content?_eq] at hcontent
  cases hbytes : t.bytesAt (location root) with
  | none =>
    rw [hbytes] at hcontent
    cases hcontent
    exact ⟨by simp [IsChars], by simp⟩
  | some bytes =>
    rw [hbytes] at hcontent
    obtain ⟨text, htext, rfl⟩ := map_eq_ok.mp hcontent
    have hread := mapError_eq_ok.mp htext
    exact ⟨isChars_readText hread, newlines_of_readText hread ▸ not_mem_newlines text⟩

theorem Holds.content?_eq (h : Holds t root text) (hreturn : .char '\r' ∉ text) :
    content? t root = .ok (some text) := by
  obtain ⟨bytes, hbytes, hfile⟩ := h.file
  rw [h.toIsReachable.content?_eq, hfile]
  dsimp only
  rw [readText_of_bytes? hbytes, newlines_of_not_mem hreturn]
  rfl

/-- An entry that a line of the block can hold: characters, no line break of any kind, and neither
marker. -/
structure IsListable (entry : Text) : Prop where
  chars : entry.IsChars
  no_break : .char '\n' ∉ entry
  no_return : .char '\r' ∉ entry
  no_start : ¬ blockStart <:+: entry
  no_end : ¬ blockEnd <:+: entry

theorem mem_withBlock {l : Letter} (h : l ∈ withBlock entries content) :
    l ∈ content ∨ (∃ entry ∈ entries, l ∈ entry) ∨ l ∈ blockStart ++ "\n" ++ blockEnd := by
  have hblock (hl : l ∈ block entries) :
      (∃ entry ∈ entries, l ∈ entry) ∨ l ∈ blockStart ++ "\n" ++ blockEnd := by
    rcases mem_intercalate hl with hbreak | ⟨part, hpart, hl⟩
    · exact .inr (mem_append_left _ (mem_append_right _ hbreak))
    rcases mem_append.mp hpart with hpart | hend
    · rcases mem_append.mp hpart with hstart | hentry
      · rw [mem_singleton.mp hstart] at hl
        exact .inr (mem_append_left _ (mem_append_left _ hl))
      · exact .inl ⟨part, mem_sort_eraseDups.mp hentry, hl⟩
    · rw [mem_singleton.mp hend] at hl
      exact .inr (mem_append_right _ hl)
  have hbreak (hl : l ∈ ("\n" : Text)) : l ∈ blockStart ++ "\n" ++ blockEnd :=
    mem_append_left _ (mem_append_right _ hl)
  cases hsplit : splitBlock? content with
  | none =>
    rw [withBlock_of_none hsplit, mem_append, mem_append, mem_append] at h
    rcases h with ((hcontent | hgap) | hl) | hl
    · exact .inl hcontent
    · exact .inr (.inr (hbreak (mem_gap hgap)))
    · exact .inr (hblock hl)
    · exact .inr (.inr (hbreak hl))
  | some parts =>
    obtain ⟨before, after⟩ := parts
    obtain ⟨⟨first, rest⟩, hstart, hrest⟩ := Option.bind_eq_some_iff.mp hsplit
    obtain ⟨⟨old, last⟩, hend, heq⟩ := Option.bind_eq_some_iff.mp hrest
    obtain ⟨rfl, rfl⟩ := Prod.mk.inj (Option.some.inj heq)
    have hcontent : content = first ++ blockStart ++ (old ++ blockEnd ++ last) := by
      rw [(splitFirst?_inv hstart).1, (splitFirst?_inv hend).1]
    rw [withBlock, hsplit, mem_append, mem_append] at h
    rcases h with (hl | hl) | hl
    · exact .inl (hcontent ▸ mem_append_left _ (mem_append_left _ hl))
    · exact .inr (hblock hl)
    · exact .inl (hcontent ▸ mem_append_right _ (mem_append_right _ hl))

theorem isChars_withBlock (hcontent : content.IsChars)
    (hentries : ∀ entry ∈ entries, entry.IsChars) :
    (withBlock entries content).IsChars := by
  have hframe : IsChars (blockStart ++ "\n" ++ blockEnd) :=
    ((isChars_ofString _).append (isChars_ofString _)).append (isChars_ofString _)
  intro l hl
  rcases mem_withBlock hl with hl | ⟨entry, hentry, hl⟩ | hl
  · exact hcontent l hl
  · exact hentries entry hentry l hl
  · exact hframe l hl

theorem return_not_mem_withBlock (hcontent : .char '\r' ∉ content)
    (hentries : ∀ entry ∈ entries, .char '\r' ∉ entry) :
    .char '\r' ∉ withBlock entries content := by
  have hframe : Letter.char '\r' ∉ blockStart ++ "\n" ++ blockEnd := by
    simp [blockStart, blockEnd, ofString, ofChars]
  intro hl
  rcases mem_withBlock hl with hl | ⟨entry, hentry, hl⟩ | hl
  · exact hcontent hl
  · exact hentries entry hentry hl
  · exact hframe hl

theorem block_ne_nil (entries : List Text) : block entries ≠ [] := by
  simp [block_eq, blockStart_ne_nil]

theorem withBlock_ne_nil (entries : List Text) (content : Text) :
    withBlock entries content ≠ [] := by
  unfold withBlock
  split
  · simp [block_ne_nil]
  · split <;> simp [block_ne_nil]

/-- A call leaves the text with the block of its entries, and tells whether that is another text
than it has read. -/
theorem exists_update (ht : t.WellFormed) (hroot : t.get? root = some .dir)
    (hcontent : content? t root = .ok found) (hne : entries ≠ [])
    (hentries : ∀ entry ∈ entries, IsListable entry) :
    ∃ answer v, update t root entries = .ok (answer, v) ∧
      content? v root = .ok (some (withBlock entries (found.getD []))) ∧
      (answer = true ↔ content? v root ≠ content? t root) ∧ (answer = false → v = t) ∧
      (answer = true → Holds v root (withBlock entries (found.getD []))) := by
  have hreach := isReachable_of_content? ht hroot hcontent
  obtain ⟨hchars, hreturn⟩ := hreach.content?_letters hcontent
  obtain ⟨v, hwrite, hholds⟩ := hreach.exists_write
    (isChars_withBlock hchars fun entry hentry => (hentries entry hentry).chars)
  have hread := hholds.content?_eq
    (return_not_mem_withBlock hreturn fun entry hentry => (hentries entry hentry).no_return)
  have hupdate : update t root entries =
      if withBlock entries (found.getD []) = found.getD [] then .ok (false, t)
      else .ok (true, v) := by
    rw [update, if_neg (by simpa using hne), hcontent]
    change (if withBlock entries (found.getD []) = found.getD [] then _ else
      write t root (withBlock entries (found.getD [])) >>= _) = _
    rw [hwrite]
    rfl
  by_cases hsame : withBlock entries (found.getD []) = found.getD []
  · refine ⟨false, t, by rw [hupdate, if_pos hsame], ?_, by simp, fun _ => rfl, by simp⟩
    cases found with
    | none => exact absurd hsame (withBlock_ne_nil _ _)
    | some text => rw [hcontent, hsame, Option.getD_some]
  · refine ⟨true, v, by rw [hupdate, if_neg hsame], hread, ?_, by simp, fun _ => hholds⟩
    rw [hread, hcontent]
    refine ⟨fun _ heq => hsame ?_, fun _ => rfl⟩
    exact congrArg (·.getD []) (Except.ok.inj heq)

/-- The calls one after the other, each on what the last one has left. -/
def updateAll (t : FileTree) (root : List Text) (calls : List (List Text)) : Except Halt FileTree :=
  calls.foldlM (fun t entries => (update t root entries).map (·.2)) t

/-- The lines of a block: the entries in order, each once. -/
structure Lists (lines entries : List Text) : Prop where
  sorted : lines.Pairwise fun a b => Text.le a b = true ∧ a ≠ b
  mem_iff : ∀ entry, entry ∈ lines ↔ entry ∈ entries

theorem lists_sort (entries : List Text) : Lists (Text.sort entries.eraseDups) entries where
  sorted := (pairwise_sort _).and
    ((mergeSort_perm _ _).nodup_iff.mpr (Hook.nodup_eraseDups entries))
  mem_iff _ := mem_sort_eraseDups

/-- What calls leave, when the user's text has no start marker: nothing has changed yet, or the file
holds the user's text with the block of the last call. -/
def Follows (t : FileTree) (root : List Text) (content : Text) (u : FileTree) : Prop :=
  u = t ∨ ∃ old, (∀ entry ∈ old, IsListable entry) ∧ Holds u root (withListing content old)

section Calls

variable (ht : t.WellFormed) (hroot : t.get? root = some .dir)
  (hcontent : content? t root = .ok found) (hfresh : ¬ blockStart <:+: found.getD [])
include ht hroot hcontent hfresh

theorem Follows.step (h : Follows t root (found.getD []) u) (hne : entries ≠ [])
    (hentries : ∀ entry ∈ entries, IsListable entry) :
    ∃ answer v, update u root entries = .ok (answer, v) ∧
      (answer = true ↔ content? v root ≠ content? u root) ∧ (answer = false → v = u) ∧
      Holds v root (withListing (found.getD []) entries) := by
  have hends {call : List Text} (hcall : ∀ entry ∈ call, IsListable entry) :
      ∀ entry ∈ call, ¬ blockEnd <:+: entry := fun entry hentry => (hcall entry hentry).no_end
  have hfirst (call : List Text) :
      withBlock call (found.getD []) = withListing (found.getD []) call :=
    withBlock_of_none (splitBlock?_of_fresh hfresh) call
  rcases h with rfl | ⟨old, hold, hholds⟩
  · obtain ⟨answer, v, hupdate, hread, hiff, hsame, hwritten⟩ :=
      exists_update ht hroot hcontent hne hentries
    refine ⟨answer, v, hupdate, hiff, hsame, hfirst entries ▸ hwritten (hiff.mpr fun heq => ?_)⟩
    rw [hread, hcontent, hfirst, Except.ok.injEq] at heq
    have hlength := congrArg List.length (congrArg (·.getD []) heq)
    have hblock := length_pos_of_ne_nil (block_ne_nil entries)
    simp only [Option.getD_some, withListing, length_append] at hlength
    omega
  · obtain ⟨-, hreturn⟩ := (isReachable_of_content? ht hroot hcontent).content?_letters hcontent
    have hbefore := hholds.content?_eq (hfirst old ▸
      return_not_mem_withBlock hreturn fun entry hentry => (hold entry hentry).no_return)
    obtain ⟨answer, v, hupdate, hread, hiff, hsame, hwritten⟩ :=
      exists_update hholds.wellFormed hholds.root_dir hbefore hne hentries
    rw [Option.getD_some, withBlock_withListing hfresh (hends hold)] at hread hwritten
    refine ⟨answer, v, hupdate, hiff, hsame, ?_⟩
    cases answer with
    | true => exact hwritten rfl
    | false =>
      obtain rfl := hsame rfl
      rw [hbefore, Except.ok.injEq, Option.some.injEq] at hread
      exact hread ▸ hholds

theorem exists_updateAll {calls : List (List Text)}
    (hcalls : ∀ call ∈ calls, call ≠ [] ∧ ∀ entry ∈ call, IsListable entry) :
    ∃ u, updateAll t root calls = .ok u ∧ Follows t root (found.getD []) u := by
  induction calls using reverseRecOn with
  | nil => exact ⟨t, rfl, .inl rfl⟩
  | append_singleton earlier entries ih =>
    obtain ⟨u, hu, hfollows⟩ := ih fun call hcall => hcalls call (mem_append_left _ hcall)
    obtain ⟨hne, hentries⟩ := hcalls entries (by simp)
    obtain ⟨answer, v, hupdate, -, -, hholds⟩ :=
      hfollows.step ht hroot hcontent hfresh hne hentries
    refine ⟨v, ?_, .inr ⟨entries, hentries, hholds⟩⟩
    unfold updateAll at hu ⊢
    rw [foldlM_append, hu]
    simp [bind, Except.bind, hupdate, Except.map, pure, Except.pure]

theorem Holds.exists_remove (h : Holds v root (withListing (found.getD []) entries))
    (hentries : ∀ entry ∈ entries, IsListable entry) :
    ∃ w, remove v root = .ok (true, w) ∧ Holds w root (cleaned (found.getD [])) := by
  obtain ⟨hchars, hreturn⟩ := (isReachable_of_content? ht hroot hcontent).content?_letters hcontent
  have hfirst : withBlock entries (found.getD []) = withListing (found.getD []) entries :=
    withBlock_of_none (splitBlock?_of_fresh hfresh) entries
  have hread := h.content?_eq (hfirst ▸
    return_not_mem_withBlock hreturn fun entry hentry => (hentries entry hentry).no_return)
  have hcleaned : (cleaned (found.getD [])).IsChars := by
    unfold cleaned
    split
    · simp [IsChars]
    · have hfront : trimEnd (found.getD []) <+: found.getD [] :=
        rdropWhile_prefix isBlank _
      exact IsChars.append (fun l hl => hchars l (hfront.subset hl)) (isChars_ofString _)
  obtain ⟨w, hwrite, hholds⟩ := h.toIsReachable.exists_write hcleaned
  refine ⟨w, ?_, hholds⟩
  have hsplit := withoutBlock?_withListing hfresh fun entry hentry => (hentries entry hentry).no_end
  simp [remove, hread, Failure.orHalt, Except.mapError, hsplit, hwrite, bind, Except.bind, pure,
    Except.pure]

/-- The block is self-contained over any sequence of calls: after each of them the file is the
user's text, the separator, and the block of the call's entries, in order and each once. A call
tells whether it has changed the text, and leaves the file alone if not. To remove the block leaves
the user's text without the blanks at its end. -/
theorem updates_keep_block_apart (earlier : List (List Text)) (entries : List Text)
    (hcalls : ∀ call ∈ earlier ++ [entries], call ≠ [] ∧ ∀ entry ∈ call, IsListable entry) :
    ∃ u answer v lines, updateAll t root earlier = .ok u ∧ update u root entries = .ok (answer, v) ∧
      Lists lines entries ∧
      Holds v root (found.getD [] ++ gap (found.getD []) ++
        Text.intercalate "\n" ([blockStart] ++ lines ++ [blockEnd]) ++ "\n") ∧
      (answer = true ↔ content? v root ≠ content? u root) ∧ (answer = false → v = u) ∧
      ∃ w, remove v root = .ok (true, w) ∧ Holds w root (cleaned (found.getD [])) := by
  obtain ⟨hne, hentries⟩ := hcalls entries (by simp)
  obtain ⟨u, hu, hfollows⟩ := exists_updateAll ht hroot hcontent hfresh
    fun call hcall => hcalls call (List.mem_append_left _ hcall)
  obtain ⟨answer, v, hupdate, hiff, hsame, hholds⟩ :=
    hfollows.step ht hroot hcontent hfresh hne hentries
  exact ⟨u, answer, v, _, hu, hupdate, lists_sort entries, hholds, hiff, hsame,
    hholds.exists_remove ht hroot hcontent hfresh hentries⟩

end Calls

/-- A project whose ignore file has a line of the user's and a stray end marker. -/
def strayProject : FileTree :=
  ⟨[(["p"], .dir), (["p", ".gitignore"], .file ("b\n" ++ "# <<< agentrc managed <<<").toUTF8)]⟩

theorem isListable_letter {c : Char} (hbreak : c ≠ '\n') (hreturn : c ≠ '\r') :
    IsListable [.char c] := by
  have hshort {word : Text} (hlong : 1 < word.length) : ¬ word <:+: [.char c] := fun hinfix =>
    Nat.not_lt_of_le hinfix.length_le hlong
  exact ⟨by simp [IsChars], by simpa using Ne.symm hbreak, by simpa using Ne.symm hreturn,
    hshort (by decide), hshort (by decide)⟩

theorem updates_keep_block_apart_after_stray_end :
    ∃ u answer v lines, updateAll strayProject ["p"] [["b", "a"]] = .ok u ∧
      update u ["p"] ["a"] = .ok (answer, v) ∧ Lists lines ["a"] ∧
      Holds v ["p"] ("b\n" ++ blockEnd ++ gap ("b\n" ++ blockEnd) ++
        Text.intercalate "\n" ([blockStart] ++ lines ++ [blockEnd]) ++ "\n") ∧
      (answer = true ↔ content? v ["p"] ≠ content? u ["p"]) ∧ (answer = false → v = u) ∧
      ∃ w, remove v ["p"] = .ok (true, w) ∧ Holds w ["p"] (cleaned ("b\n" ++ blockEnd)) := by
  have hcontent : content? strayProject ["p"] = .ok (some ("b\n" ++ blockEnd : Text)) := by
    decide +kernel
  refine updates_keep_block_apart (FileTree.wellFormed_of_isPlain (by decide +kernel)) rfl hcontent
    (mt Text.includes_iff.mpr (by decide +kernel)) [["b", "a"]] ["a"] ?_
  have ha : IsListable "a" := isListable_letter (by decide) (by decide)
  have hb : IsListable "b" := isListable_letter (by decide) (by decide)
  simp [ha, hb]

/-- A second call with the same entries changes nothing, unless a start marker has no end behind it:
then the first call puts the block at the end of the text, and the second one takes all from the
start marker on for the block, so that the lines between are lost. -/
theorem second_update_idle_unless_open (ht : t.WellFormed) (hroot : t.get? root = some .dir)
    (hcontent : content? t root = .ok found) (hne : entries ≠ [])
    (hentries : ∀ entry ∈ entries, IsListable entry) :
    ∃ first u, update t root entries = .ok (first, u) ∧
      ((∀ before rest, ¬ IsOpen (found.getD []) before rest) →
        update u root entries = .ok (false, u)) ∧
      ∀ before rest, IsOpen (found.getD []) before rest →
        Holds u root (found.getD [] ++ gap (found.getD []) ++ block entries ++ "\n") ∧
          ∃ v, update u root entries = .ok (true, v) ∧
            Holds v root (before ++ block entries ++ "\n") := by
  have hends : ∀ entry ∈ entries, ¬ blockEnd <:+: entry :=
    fun entry hentry => (hentries entry hentry).no_end
  obtain ⟨first, u, hfirst, hread, hiff, hsame, hwritten⟩ :=
    exists_update ht hroot hcontent hne hentries
  have hstate : u.WellFormed ∧ u.get? root = some .dir := by
    cases first with
    | false => exact hsame rfl ▸ ⟨ht, hroot⟩
    | true => exact ⟨(hwritten rfl).wellFormed, (hwritten rfl).root_dir⟩
  obtain ⟨second, v, hsecond, hread', hiff', hsame', hwritten'⟩ :=
    exists_update hstate.1 hstate.2 hread hne hentries
  rw [Option.getD_some] at hread' hwritten'
  refine ⟨first, u, hfirst, fun hclosed => ?_, fun before rest hopen => ?_⟩
  · rw [withBlock_withBlock hends hclosed] at hread'
    have hidle : second = false := by
      rw [← Bool.not_eq_true, hiff', hread', hread]
      exact fun hne => hne rfl
    rw [hsecond, hidle, hsame' hidle]
  · have hput := withBlock_of_none hopen.splitBlock?_eq entries
    have htaken := hopen.withBlock_withBlock hends
    have hblock := List.length_pos_of_ne_nil (block_ne_nil entries)
    have hstart := List.length_pos_of_ne_nil blockStart_ne_nil
    -- The first text is longer than the user's, the second one shorter than the first.
    have hmore : (found.getD []).length < (withBlock entries (found.getD [])).length := by
      simp only [hput, List.length_append]
      omega
    have hless : (withBlock entries (withBlock entries (found.getD []))).length <
        (withBlock entries (found.getD [])).length := by
      have hlength := congrArg List.length (Text.splitFirst?_inv hopen.starts).1
      rw [htaken, hput]
      simp only [List.length_append] at hlength ⊢
      omega
    have hchanged : first = true := by
      rw [hiff, hread, hcontent]
      intro heq
      have hsame : withBlock entries (found.getD []) = found.getD [] :=
        congrArg (·.getD []) (Except.ok.inj heq)
      exact absurd (congrArg List.length hsame) (Nat.ne_of_gt hmore)
    have hchanged' : second = true := by
      rw [hiff', hread', hread]
      intro heq
      have hsame := Option.some.inj (Except.ok.inj heq)
      exact absurd (congrArg List.length hsame) (Nat.ne_of_lt hless)
    exact ⟨hput ▸ hwritten hchanged, v, hchanged' ▸ hsecond, htaken ▸ hwritten' hchanged'⟩

/-- A project whose ignore file has lost the end of its block. -/
def openProject : FileTree :=
  ⟨[(["p"], .dir), (["p", ".gitignore"],
    .file ("# >>> agentrc managed (do not edit) >>>" ++ "\nb\n").toUTF8)]⟩

theorem second_update_takes_lines_of_open_block :
    IsOpen (blockStart ++ "\nb\n") [] "\nb\n" ∧
      ∃ first u v, update openProject ["p"] ["a"] = .ok (first, u) ∧
        Holds u ["p"]
          (blockStart ++ "\nb\n" ++ gap (blockStart ++ "\nb\n") ++ block ["a"] ++ "\n") ∧
        update u ["p"] ["a"] = .ok (true, v) ∧ Holds v ["p"] (block ["a"] ++ "\n") := by
  have hcontent : content? openProject ["p"] = .ok (some (blockStart ++ "\nb\n" : Text)) := by
    decide +kernel
  have hopen : IsOpen (blockStart ++ "\nb\n") [] "\nb\n" :=
    ⟨by decide +kernel, mt Text.includes_iff.mpr (by decide +kernel)⟩
  have ha : ∀ entry ∈ ([("a" : Text)] : List Text), IsListable entry := by
    rw [List.forall_mem_singleton]
    exact isListable_letter (by decide) (by decide)
  obtain ⟨first, u, hfirst, -, hlost⟩ := second_update_idle_unless_open
    (FileTree.wellFormed_of_isPlain (by decide +kernel)) rfl hcontent (List.cons_ne_nil _ _) ha
  obtain ⟨hholds, v, hsecond, hleft⟩ := hlost [] "\nb\n" hopen
  exact ⟨hopen, first, u, v, hfirst, hholds, hsecond, hleft⟩

/-- The second call tells of a change, and leaves other bytes than the first. -/
theorem second_update_of_open_block_changes_file :
    Outcome.checks (fun (_, u) => Outcome.checks (fun (answer, v) => answer &&
        v.get? (location ["p"]) != u.get? (location ["p"])) (update u ["p"] ["a"]))
      (update openProject ["p"] ["a"]) = true := by
  decide +kernel

end AgentConfig.IgnoreFile
