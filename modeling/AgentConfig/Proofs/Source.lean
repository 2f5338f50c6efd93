import AgentConfig.Proofs.FileTree.Directories
import AgentConfig.Source

namespace AgentConfig.Text

open List

variable {text after before ending stem : Text} {b : UInt8} {tail bytes : List UInt8}

def IsAscii (text : Text) : Prop := ∀ l ∈ text, ∃ c : Char, l = .char c ∧ c.toNat < 128

theorem isAscii_of_all (h : text.all (Letter.is (·.toNat < 128)) = true) : IsAscii text := by
  intro l hl
  have hl := all_eq_true.mp h l hl
  cases l with
  | char c => exact ⟨c, rfl, by simpa [Letter.is] using hl⟩
  | half place => simp [Letter.is] at hl

theorem isSome_chars?_cons (l : Letter) (rest : Text) :
    (chars? (l :: rest)).isSome = (l.char?.isSome && (chars? rest).isSome) := by
  unfold chars?
  rw [mapM_cons]
  cases l.char? with
  | none => rfl
  | some c => cases h : List.mapM Letter.char? rest <;> simp

theorem isSome_chars?_append (a b : Text) :
    (chars? (a ++ b)).isSome = ((chars? a).isSome && (chars? b).isSome) := by
  induction a with
  | nil => simp [chars?]
  | cons l rest ih =>
    rw [cons_append, isSome_chars?_cons, ih, isSome_chars?_cons, Bool.and_assoc]

theorem IsAscii.isSome_chars? (h : IsAscii text) : (chars? text).isSome = true := by
  induction text with
  | nil => rfl
  | cons l rest ih =>
    obtain ⟨c, rfl, -⟩ := h l (by simp)
    rw [isSome_chars?_cons, ih fun l hl => h l (by simp [hl])]
    rfl

theorem nameBytes?_append (a b : Text) : nameBytes? (a ++ b) =
      (nameBytes? a).bind fun first => (nameBytes? b).map fun second => first ++ second := by
  unfold nameBytes?
  rw [mapM_append]
  cases List.mapM nameLetterBytes? a with
  | none => rfl
  | some as => cases List.mapM nameLetterBytes? b <;> simp

private theorem characterLength_ascii (h : b < 0x80) : characterLength b = 1 := by
  simp [characterLength, h]

theorem nameOfBytesFrom_cons_ascii (h : b < 0x80) (rest : List UInt8) :
    nameOfBytesFrom 0 (b :: rest) = .char (Char.ofNat b.toNat) :: nameOfBytesFrom 0 rest := by
  have hlt : b.toNat < 128 := UInt8.lt_iff_toNat_lt.mp h
  have hcode : ¬ (0xD800 ≤ b.toNat ∧ b.toNat < 0xE000) := by omega
  rw [nameOfBytesFrom]
  simp only [characterLength_ascii h, continuationFault, take_zero, characterCode,
    length_nil, foldl_nil, Letter.ofCode, hcode, dite_false]

private theorem continuationFault_append (first : UInt8)
    (htail : ∀ b ∈ tail, b < 0x80) (expected read : Nat) (rest : List UInt8) :
    (continuationFault first expected read rest = none ∧ expected ≤ rest.length ∧
      continuationFault first expected read (rest ++ tail) = none) ∨
    ((continuationFault first expected read rest).isSome = true ∧
      (continuationFault first expected read (rest ++ tail)).isSome = true) := by
  induction rest generalizing expected read with
  | nil =>
    cases expected with
    | zero => exact .inl ⟨rfl, Nat.zero_le _, by simp [continuationFault]⟩
    | succ expected =>
      refine .inr ⟨rfl, ?_⟩
      cases tail with
      | nil => rfl
      | cons b more =>
        have hb : ¬ (0x80 : UInt8) ≤ b := UInt8.not_le.mpr (htail b (by simp))
        have hfits : (if read = 1 then isSecondByte first b else isContinuation b) = false := by
          simp [isSecondByte, isContinuation, hb]
        simp [continuationFault, hfits]
  | cons b rest ih =>
    cases expected with
    | zero => exact .inl ⟨rfl, Nat.zero_le _, by simp [continuationFault]⟩
    | succ expected =>
      simp only [cons_append, continuationFault, length_cons]
      generalize (if read = 1 then isSecondByte first b else isContinuation b) = fits
      cases fits with
      | false => exact .inr ⟨rfl, rfl⟩
      | true =>
        rcases ih expected (read + 1) with ⟨h, hle, h'⟩ | h
        · exact .inl ⟨h, Nat.succ_le_succ hle, h'⟩
        · exact .inr h

theorem nameOfBytesFrom_append_ascii (htail : ∀ b ∈ tail, b < 0x80) {skip : Nat}
    (hskip : skip ≤ bytes.length) :
    nameOfBytesFrom skip (bytes ++ tail) =
      nameOfBytesFrom skip bytes ++ nameOfBytesFrom 0 tail := by
  induction bytes generalizing skip with
  | nil =>
    have hzero : skip = 0 := Nat.le_zero.mp hskip
    subst hzero
    rfl
  | cons b rest ih =>
    cases skip with
    | succ skip => exact ih (Nat.le_of_succ_le_succ hskip)
    | zero =>
      rw [cons_append, nameOfBytesFrom, nameOfBytesFrom]
      cases hlength : characterLength b with
      | zero => simp [ih (Nat.zero_le _)]
      | succ n =>
        rcases continuationFault_append b htail n 1 rest with ⟨h, hle, h'⟩ | ⟨h, h'⟩
        · simp [h, h', ih hle, take_append_of_le_length hle]
        · obtain ⟨fault, hfault⟩ := Option.isSome_iff_exists.mp h
          obtain ⟨fault', hfault'⟩ := Option.isSome_iff_exists.mp h'
          simp [hfault, hfault', ih (Nat.zero_le _)]

theorem IsAscii.exists_bytes (h : IsAscii text) :
    ∃ bytes, nameBytes? text = some bytes ∧ (∀ b ∈ bytes, b < 0x80) ∧
      ∀ rest, nameOfBytesFrom 0 (bytes ++ rest) = text ++ nameOfBytesFrom 0 rest := by
  induction text with
  | nil => exact ⟨[], rfl, by simp, fun _ => rfl⟩
  | cons l rest ih =>
    obtain ⟨bytes, hbytes, hascii, hread⟩ := ih fun l hl => h l (by simp [hl])
    obtain ⟨c, rfl, hc⟩ := h l (by simp)
    have hencode : String.utf8EncodeChar c = [UInt8.ofNat c.toNat] := by
      exact if_pos (Nat.le_of_lt_succ hc)
    have hnat : (UInt8.ofNat c.toNat).toNat = c.toNat := by
      exact Nat.mod_eq_of_lt (by omega)
    have hbyte : UInt8.ofNat c.toNat < 0x80 :=
      UInt8.lt_iff_toNat_lt.mpr (by rw [hnat]; exact hc)
    refine ⟨UInt8.ofNat c.toNat :: bytes, ?_, ?_, ?_⟩
    · rw [← singleton_append, nameBytes?_append, hbytes]
      simp [nameBytes?, nameLetterBytes?, hencode]
    · exact forall_mem_cons.mpr ⟨hbyte, hascii⟩
    · intro more
      rw [cons_append, nameOfBytesFrom_cons_ascii hbyte, hread, hnat]
      exact congrArg (· :: _) (congrArg Letter.char (Char.ofNat_toNat c))

theorem fileName?_around (hbefore : IsAscii before) (hending : IsAscii ending)
    (hafter : IsAscii after) (hread : fileName? (stem ++ ending) = some (stem ++ ending)) :
    fileName? (before ++ stem ++ after) = some (before ++ stem ++ after) := by
  unfold fileName? at hread ⊢
  simp only [isSome_chars?_append, hbefore.isSome_chars?, hending.isSome_chars?,
    hafter.isSome_chars?, Bool.true_and, Bool.and_true] at hread ⊢
  split
  · rfl
  rename_i hchars
  rw [if_neg hchars] at hread
  obtain ⟨first, hfirst, _, hreadFirst⟩ := hbefore.exists_bytes
  obtain ⟨last, hlast, hlastAscii, hreadLast⟩ := hending.exists_bytes
  obtain ⟨next, hnext, hnextAscii, hreadNext⟩ := hafter.exists_bytes
  have hlastText : nameOfBytesFrom 0 last = ending := by
    simpa [nameOfBytesFrom] using hreadLast []
  have hnextText : nameOfBytesFrom 0 next = after := by
    simpa [nameOfBytesFrom] using hreadNext []
  rw [nameBytes?_append, hlast] at hread
  rw [nameBytes?_append, nameBytes?_append, hfirst, hnext]
  cases hbytes : nameBytes? stem with
  | none => simp [hbytes] at hread
  | some bytes =>
    simp only [hbytes, Option.bind_some, Option.map_some, Option.some.injEq,
      nameOfBytes] at hread ⊢
    rw [nameOfBytesFrom_append_ascii hlastAscii (Nat.zero_le _), hlastText] at hread
    rw [append_assoc, hreadFirst, nameOfBytesFrom_append_ascii hnextAscii (Nat.zero_le _),
      hnextText, append_cancel_right hread, append_assoc]

end AgentConfig.Text

namespace AgentConfig

open List Outcome AgentConfig.Path

variable {after before name : Text}

namespace Path

/-- The name of a document without its suffix. -/
def IsStem (name : Text) : Prop := IsFileName (name ++ ".md")

theorem eq_stem_append (h : suffix name = ".md") : name = stem name ++ ".md" := by
  have hsplit : ∀ {before after}, splitLastDot? name = some (before, after) →
      name = before ++ after := by
    intro before after hsome
    unfold splitLastDot? at hsome
    split at hsome
    · cases hsome
    rename_i dot rest hdrop
    cases hsome
    have hname :=
      takeWhile_append_dropWhile (p := (· != Letter.char '.')) (l := name.reverse)
    rw [hdrop] at hname
    simpa using (congrArg List.reverse hname).symm
  unfold suffix at h
  split at h
  · rename_i first more dot l rest hsome
    rw [hsplit hsome, ← h]
    simp [stem, ← hsplit hsome, hsome]
  · cases h

theorem IsStem.isProper (h : IsStem name) (hbefore : Text.IsAscii before)
    (hafter : Text.IsAscii after) (hslash : .char '/' ∉ before ++ after)
    (hlength : 2 < after.length) : IsProper (before ++ name ++ after) := by
  have hlong : 2 < (before ++ name ++ after).length := by
    simp only [length_append]
    omega
  have hread := Text.fileName?_around hbefore (Text.isAscii_of_all (by decide)) hafter h.readable
  have hne {other : Text} (hshort : other.length ≤ 2) : before ++ name ++ after ≠ other := by
    rintro rfl
    omega
  refine ⟨hne (by decide), hne (by decide), hne (by decide), ?_, ?_⟩
  · have hname : .char '/' ∉ name := fun hmem => h.no_slash (mem_append_left _ hmem)
    simp only [mem_append, not_or] at hslash ⊢
    exact ⟨⟨hslash.1, hname⟩, hslash.2⟩
  · intro read hother
    exact (Option.some.inj (hread.symm.trans hother)).symm

end Path

/-- Guidance whose names come from a file system: documents have stems, a skill is a directory, and
its supporting files lie below that. -/
structure Guidance.IsNamed (g : Guidance) : Prop where
  rules : ∀ r ∈ g.rules, IsStem r.name
  commands : ∀ c ∈ g.commands, IsStem c.name
  agents : ∀ a ∈ g.agents, IsStem a.name
  skills : ∀ s ∈ g.skills, IsProper s.name
  files : ∀ s ∈ g.skills, ∀ file ∈ s.files, ∃ names, Leads file.1 names

/-- Guidance in which no name stands for two things of one kind, and no path for two files of a
skill. -/
structure Guidance.IsDistinct (g : Guidance) : Prop where
  rules : (g.rules.map (·.name)).Nodup
  commands : (g.commands.map (·.name)).Nodup
  agents : (g.agents.map (·.name)).Nodup
  skills : (g.skills.map (·.name)).Nodup
  files : ∀ s ∈ g.skills, (s.files.map (·.1)).Nodup ∧ Source.skillFileName ∉ s.files.map (·.1)

namespace Source

variable {t : FileTree} {dir root location : List Text} {documents : List SourceDocument}
  {s : Source} {skills : List SourceSkill}

/-- The documents of a directory are those of files in it, each of them once. -/
theorem documentsIn_inv (h : documentsIn t dir = .ok documents) :
    (documents.map fun d => d.name ++ (".md" : Text)).Sublist (t.children dir) ∧
      ∀ d ∈ documents, ∃ bytes, t.get? (child dir (d.name ++ ".md")) = some (.file bytes) := by
  rw [documentsIn, bind_eq_ok] at h
  obtain ⟨found, -, h⟩ := h
  split at h
  · cases h
    simp
  generalize t.children dir = names at h ⊢
  induction names generalizing documents with
  | nil =>
    cases h
    simp
  | cons name rest ih =>
    rw [filterMap_cons] at h
    split at h
    · obtain ⟨hsub, hall⟩ := ih h
      exact ⟨hsub.cons _, hall⟩
    rename_i file hfile
    rw [mapM_cons, bind_eq_ok] at h
    obtain ⟨d, hd, h⟩ := h
    obtain ⟨more, hmore, h⟩ := bind_eq_ok.mp h
    cases h
    obtain ⟨hsub, hall⟩ := ih hmore
    obtain ⟨document, -, hd⟩ := bind_eq_ok.mp hd
    cases hd
    split at hfile
    · rename_i bytes hget
      split at hfile
      · rename_i hdocument
        cases hfile
        simp only [isDocumentName, Bool.and_eq_true, beq_iff_eq] at hdocument
        have hname : Path.stem name ++ (".md" : Text) = name :=
          (eq_stem_append hdocument.1).symm
        refine ⟨?_, forall_mem_cons.mpr ⟨⟨bytes, ?_⟩, hall⟩⟩
        · rw [map_cons, hname]
          exact hsub.cons_cons name
        · rw [hname, hget]
      · cases hfile
    · cases hfile

theorem documentsIn_named (ht : t.WellFormed) (h : documentsIn t dir = .ok documents) :
    ∀ d ∈ documents, IsStem d.name := by
  intro d hd
  obtain ⟨bytes, hget⟩ := (documentsIn_inv h).2 d hd
  exact ht.isFileName hget _ (by simp [child])

theorem documentsIn_nodup (ht : t.WellFormed) (h : documentsIn t dir = .ok documents) :
    (documents.map (·.name)).Nodup := by
  have hfiles := (ht.nodup_children dir).sublist (documentsIn_inv h).1
  refine Nodup.of_map (fun name : Text => name ++ (".md" : Text)) ?_
  rwa [map_map]

theorem supportingFiles_lead (ht : t.WellFormed) :
    ∀ file ∈ supportingFiles t location, ∃ names, Leads file.1 names := by
  intro file hfile
  obtain ⟨⟨names, bytes⟩, hmem, hsome⟩ := mem_filterMap.mp hfile
  obtain ⟨hne, hget⟩ := ht.mem_filesBelow_iff.mp hmem
  have hproper : AreProper names := ht.areProper_below hget
  dsimp only at hsome
  split at hsome
  · split at hsome
    · cases hsome
      exact ⟨names, hne, hproper, (relative_eq_intercalate hne).symm⟩
    · cases hsome
  · cases hsome

theorem supportingFiles_nodup (ht : t.WellFormed) (location : List Text) :
    ((supportingFiles t location).map (·.1)).Nodup ∧
      skillFileName ∉ (supportingFiles t location).map (·.1) := by
  have hleads : ∀ {names bytes}, (names, bytes) ∈ t.filesBelow location →
      Leads (Text.intercalate "/" names) names := by
    intro names bytes hmem
    obtain ⟨hne, hget⟩ := ht.mem_filesBelow_iff.mp hmem
    exact ⟨hne, ht.areProper_below hget, (relative_eq_intercalate hne).symm⟩
  constructor
  · rw [Nodup, pairwise_map]
    refine pairwise_filterMap.mpr ((ht.nodup_filesBelow location).imp_of_mem ?_)
    rintro ⟨names, bytes⟩ ⟨names', bytes'⟩ hmem hmem' hne file hfile file' hfile' hpath
    dsimp only at hfile hfile'
    split at hfile
    · split at hfile
      · cases hfile
        split at hfile'
        · split at hfile'
          · cases hfile'
            obtain rfl : names = names' := (hleads hmem).names_eq.symm.trans
              ((congrArg Path.names hpath).trans (hleads hmem').names_eq)
            have hget := (ht.mem_filesBelow_iff.mp hmem).2
            rw [(ht.mem_filesBelow_iff.mp hmem').2] at hget
            cases hget
            exact hne rfl
          · cases hfile'
        · cases hfile'
      · cases hfile
    · cases hfile
  · intro hmain
    obtain ⟨file, hfile, hpath⟩ := mem_map.mp hmain
    obtain ⟨⟨names, bytes⟩, hmem, hfile⟩ := mem_filterMap.mp hfile
    dsimp only at hfile
    split at hfile
    · rename_i hname
      split at hfile
      · cases hfile
        obtain rfl : names = [skillFileName] := (hleads hmem).names_eq.symm.trans
          ((congrArg Path.names hpath).trans (by decide +kernel))
        exact absurd hname (by decide +kernel)
      · cases hfile
    · cases hfile

theorem skill?_inv {s : SourceSkill} (h : skill? t dir name = .ok (some s)) :
    s.skill.name = name ∧ s.skill.files = supportingFiles t (child dir name) := by
  unfold skill? at h
  dsimp only at h
  split at h
  · obtain ⟨document, -, h⟩ := bind_eq_ok.mp h
    cases h
    exact ⟨rfl, rfl⟩
  · cases h

/-- The skills of a directory are those of directories in it, each of them once. -/
theorem skillsIn_inv (h : skillsIn t dir = .ok skills) :
    (skills.map (·.skill.name)).Sublist (t.children dir) ∧
      ∀ s ∈ skills, t.get? (child dir s.skill.name) = some .dir ∧
        s.skill.files = supportingFiles t (child dir s.skill.name) := by
  rw [skillsIn, bind_eq_ok] at h
  obtain ⟨found, -, h⟩ := h
  split at h
  · cases h
    simp
  rw [bind_eq_ok] at h
  obtain ⟨all, hall, h⟩ := h
  cases h
  generalize t.children dir = names at hall ⊢
  induction names generalizing all with
  | nil =>
    cases hall
    simp
  | cons name rest ih =>
    rw [filter_cons] at hall
    split at hall
    · rename_i hdir
      rw [mapM_cons, bind_eq_ok] at hall
      obtain ⟨found?, hskill, hall⟩ := hall
      obtain ⟨more, hmore, hall⟩ := bind_eq_ok.mp hall
      cases hall
      obtain ⟨hsub, hmem⟩ := ih more hmore
      cases found? with
      | none => exact ⟨hsub.cons _, hmem⟩
      | some s =>
        obtain ⟨rfl, hfiles⟩ := skill?_inv hskill
        exact ⟨hsub.cons_cons _, forall_mem_cons.mpr ⟨⟨by simpa using hdir, hfiles⟩, hmem⟩⟩
    · obtain ⟨hsub, hmem⟩ := ih all hall
      exact ⟨hsub.cons _, hmem⟩

theorem skillsIn_named (ht : t.WellFormed) (h : skillsIn t dir = .ok skills) :
    ∀ s ∈ skills, IsProper s.skill.name ∧
      ∀ file ∈ s.skill.files, ∃ names, Leads file.1 names := by
  intro s hs
  obtain ⟨hdir, hfiles⟩ := (skillsIn_inv h).2 s hs
  rw [hfiles]
  exact ⟨(ht.isFileName hdir _ (by simp [child])).toIsProper, supportingFiles_lead ht⟩

/-- Everything that the guidance of a project says was read from the documents of its sources. -/
theorem load_inv (h : load t root = .ok s) :
    ∃ rules commands skills agents, documentsIn t rules = .ok s.rules ∧
      documentsIn t commands = .ok s.commands ∧ skillsIn t skills = .ok s.skills ∧
      documentsIn t agents = .ok s.agents := by
  obtain ⟨found, -, h⟩ := bind_eq_ok.mp h
  split at h
  · cases h
  obtain ⟨file, -, h⟩ := bind_eq_ok.mp h
  cases file with
  | none => cases h
  | some bytes =>
    obtain ⟨text, -, h⟩ := bind_eq_ok.mp h
    obtain ⟨config, -, h⟩ := bind_eq_ok.mp h
    obtain ⟨rules, hrules, h⟩ := bind_eq_ok.mp h
    obtain ⟨commands, hcommands, h⟩ := bind_eq_ok.mp h
    obtain ⟨skills, hskills, h⟩ := bind_eq_ok.mp h
    obtain ⟨agents, hagents, h⟩ := bind_eq_ok.mp h
    cases h
    exact ⟨_, _, _, _, hrules, hcommands, hskills, hagents⟩

theorem load_isNamed (ht : t.WellFormed) (h : load t root = .ok s) : s.guidance.IsNamed := by
  obtain ⟨_, _, _, _, hrules, hcommands, hskills, hagents⟩ := load_inv h
  refine ⟨?_, ?_, ?_, ?_, ?_⟩
  · intro r hr
    simp only [guidance, sortByPriority, mem_mergeSort, mem_map] at hr
    obtain ⟨d, hd, rfl⟩ := hr
    exact documentsIn_named ht hrules d hd
  · intro c hc
    obtain ⟨d, hd, rfl⟩ := mem_map.mp hc
    exact documentsIn_named ht hcommands d hd
  · intro a ha
    obtain ⟨d, hd, rfl⟩ := mem_map.mp ha
    exact documentsIn_named ht hagents d hd
  · intro skill hskill
    obtain ⟨d, hd, rfl⟩ := mem_map.mp hskill
    exact (skillsIn_named ht hskills d hd).1
  · intro skill hskill
    obtain ⟨d, hd, rfl⟩ := mem_map.mp hskill
    exact (skillsIn_named ht hskills d hd).2

theorem load_isDistinct (ht : t.WellFormed) (h : load t root = .ok s) : s.guidance.IsDistinct := by
  obtain ⟨_, _, dir, _, hrules, hcommands, hskills, hagents⟩ := load_inv h
  refine ⟨?_, ?_, ?_, ?_, ?_⟩
  · have hnames := documentsIn_nodup ht hrules
    have hperm := (mergeSort_perm (s.rules.map fun d => d.document.toRule d.name)
      fun a b => decide (a.priority.rank ≤ b.priority.rank)).map Rule.name
    refine hperm.nodup_iff.mpr ?_
    rwa [map_map]
  · have hnames := documentsIn_nodup ht hcommands
    rwa [guidance, map_map]
  · have hnames := documentsIn_nodup ht hagents
    rwa [guidance, map_map]
  · have hnames := (ht.nodup_children dir).sublist (skillsIn_inv hskills).1
    rwa [guidance, map_map]
  · intro skill hskill
    obtain ⟨d, hd, rfl⟩ := mem_map.mp hskill
    rw [((skillsIn_inv hskills).2 d hd).2]
    exact supportingFiles_nodup ht _

end Source

end AgentConfig
