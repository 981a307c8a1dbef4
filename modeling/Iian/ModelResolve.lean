import Iian.StopStrings

/- Which file of a repository `choose_gguf` takes. -/
namespace Iian

open List

/-- Whether `std::string::find` finds the pattern. -/
def hasText (text pattern : Bytes) : Bool := (Gen.findFrom text pattern 0).isSome

def lowerByte (byte : UInt8) : UInt8 := if 0x41 ≤ byte && byte ≤ 0x5A then byte + 0x20 else byte

def lower (text : Bytes) : Bytes := text.map lowerByte

/-- `basename_of`: what is behind the last slash. -/
def basenameOf (path : Bytes) : Bytes := (path.reverse.takeWhile (· ≠ 0x2F)).reverse

structure HfSpec where
  org : Bytes
  repo : Bytes
  quant : Bytes
deriving DecidableEq, Repr

def HfSpec.repoId (spec : HfSpec) : Bytes := spec.org ++ ascii "/" ++ spec.repo

/-- The test of `hf_list_ggufs` for the names it lists. -/
def isGguf (file : Bytes) : Bool := 5 < file.length && (lower file).drop (file.length - 5) == ascii ".gguf"

def isShard (file : Bytes) : Bool :=
  hasText (lower file) (ascii "-of-") && !hasText (lower file) (ascii "00001-of")

/-- The second loop of `match_tag`. -/
def firstWith (files : List Bytes) (tag : Bytes) : Option Bytes :=
  files.find? fun file => !isShard file && hasText (lower file) (lower tag)

/-- `match_tag`; no file is the empty name. -/
def matchTag (files : List Bytes) (tag : Bytes) : Bytes :=
  match files.find? fun file => lower file == lower tag || lower (basenameOf file) == lower tag with
  | some file => file
  | none => (firstWith files tag).getD []

def availableText (files : List Bytes) : Bytes := files.flatMap (ascii "\n    " ++ ·)

def preferences : List Bytes :=
  ["q4_k_m", "q8_0", "f16", "bf16", "q6_k", "q5_k_m", "q4_0", "f32"].map ascii

/-- The loop over the preferences and what follows it. -/
def chooseDefault (spec : HfSpec) (files : List Bytes) : List Bytes → Except Bytes Bytes
  | pref :: more =>
    let file := matchTag files pref
    if file ≠ [] then .ok file else chooseDefault spec files more
  | [] =>
    match files.find? fun file => !isShard file with
    | some file => .ok file
    | none => .error (ascii "could not pick a default quant in " ++ spec.repoId ++
        ascii "; specify one with hf:" ++ spec.repoId ++ ascii ":<quant>. Available:" ++ availableText files)

def chooseGguf (spec : HfSpec) (files : List Bytes) : Except Bytes Bytes :=
  if spec.quant ≠ [] then
    let file := matchTag files spec.quant
    if file = [] then
      .error (ascii "no file matching quant '" ++ spec.quant ++ ascii "' in " ++ spec.repoId ++
        ascii ". Available:" ++ availableText files)
    else .ok file
  else chooseDefault spec files preferences

/-- The parts of a name between its hyphens and dots. -/
def components : Bytes → List Bytes
  | [] => [[]]
  | byte :: rest =>
    if byte = 0x2D ∨ byte = 0x2E then [] :: components rest
    else match components rest with
      | [] => [[byte]]
      | first :: others => (byte :: first) :: others

/-- The tag is a whole part of the name of the file. -/
def hasTag (tag file : Bytes) : Bool := (components (lower (basenameOf file))).contains (lower tag)

/-- Some file that is no later shard has the tag. -/
def offers (files : List Bytes) (tag : Bytes) : Bool := files.any fun file => !isShard file && hasTag tag file

/-- If a file has the tag, one with it is chosen. -/
def TagHonoured (spec : HfSpec) (files : List Bytes) : Prop :=
  offers files spec.quant = true → ∃ file, chooseGguf spec files = .ok file ∧ hasTag spec.quant file = true

/-- Without a tag, the file chosen has the first of the preferred tags that a file has. -/
def DefaultHonoured (spec : HfSpec) (files : List Bytes) : Prop :=
  ∀ pref ∈ preferences.find? (offers files), ∃ file, chooseGguf spec files = .ok file ∧ hasTag pref file = true

section Components

theorem components_ne_nil (text : Bytes) : components text ≠ [] := by
  cases text with
  | nil => exact cons_ne_nil _ _
  | cons byte rest =>
    rw [components]
    split
    · exact cons_ne_nil _ _
    · split <;> exact cons_ne_nil _ _

theorem components_plain {text part : Bytes} (member : part ∈ components text) : 0x2E ∉ part := by
  induction text generalizing part with
  | nil =>
    rw [components, mem_singleton] at member
    rw [member]
    exact not_mem_nil
  | cons byte rest ih =>
    rw [components] at member
    split at member
    · rcases mem_cons.mp member with rfl | member
      · exact not_mem_nil
      · exact ih member
    · rename_i other
      split at member
      · rename_i none
        exact absurd none (components_ne_nil rest)
      rename_i first others shape
      rcases mem_cons.mp member with rfl | member
      · rw [mem_cons, not_or]
        exact ⟨fun dot => other (.inr dot.symm), ih (shape ▸ mem_cons_self)⟩
      · exact ih (shape ▸ mem_cons_of_mem _ member)

theorem components_isInfix {text part : Bytes} (member : part ∈ components text) : part <:+: text := by
  suffices (∀ first ∈ (components text).head?, first <+: text) ∧ ∀ part ∈ components text, part <:+: text from
    this.2 part member
  clear member
  induction text with
  | nil => exact ⟨by rintro _ ⟨⟩; exact prefix_refl _, by simp [components]⟩
  | cons byte rest ih =>
    obtain ⟨front, all⟩ := ih
    rw [components]
    split
    · refine ⟨by rintro _ ⟨⟩; exact nil_prefix, fun part member => ?_⟩
      rcases mem_cons.mp member with rfl | member
      · exact nil_infix
      · exact (all part member).trans (suffix_cons _ _).isInfix
    · split
      · rename_i none
        exact absurd none (components_ne_nil rest)
      rename_i first others shape
      have start : byte :: first <+: byte :: rest :=
        cons_prefix_cons.mpr ⟨rfl, front first (by rw [shape]; rfl)⟩
      refine ⟨by rintro _ ⟨⟩; exact start, fun part member => ?_⟩
      rcases mem_cons.mp member with rfl | member
      · exact start.isInfix
      · exact (all part (shape ▸ mem_cons_of_mem _ member)).trans (suffix_cons _ _).isInfix

end Components

section Choice

variable {files : List Bytes} {file tag text pattern : Bytes} {byte : UInt8}

theorem hasText_of_infix (inside : pattern <:+: text) : hasText text pattern = true := by
  obtain ⟨front, back, rfl⟩ := inside
  rw [hasText]
  cases found : Gen.findFrom (front ++ pattern ++ back) pattern 0 with
  | some pos => rfl
  | none =>
    by_cases filled : pattern = []
    · subst filled
      rw [Gen.findFrom, find?_eq_none] at found
      exact absurd (by simp) (found 0 (mem_range.mpr (Nat.succ_pos _)))
    · refine absurd ?_ (Gen.findFrom_none filled found front.length (Nat.zero_le _))
      rw [Occurs, append_assoc, drop_left]
      exact prefix_append _ _

theorem lowerByte_eq {char : UInt8} (other : ¬(0x61 ≤ char.toNat ∧ char.toNat ≤ 0x7A))
    (same : lowerByte byte = char) : byte = char := by
  rw [lowerByte] at same
  split at same
  · rename_i upper
    simp only [Bool.and_eq_true, decide_eq_true_eq, UInt8.le_iff_toNat_le] at upper
    refine absurd ?_ other
    rw [← same, UInt8.toNat_add]
    have above : 0x41 ≤ byte.toNat := upper.1
    have below : byte.toNat ≤ 0x5A := upper.2
    change 0x61 ≤ (byte.toNat + 32) % 256 ∧ (byte.toNat + 32) % 256 ≤ 0x7A
    omega
  · exact same

theorem mem_lower {char : UInt8} (other : ¬(0x61 ≤ char.toNat ∧ char.toNat ≤ 0x7A))
    (fixed : lowerByte char = char) : char ∈ lower text ↔ char ∈ text := by
  rw [lower, mem_map]
  constructor
  · rintro ⟨byte, member, same⟩
    rwa [← lowerByte_eq other same]
  · exact fun member => ⟨char, member, fixed⟩

theorem dot_mem_lower : 0x2E ∈ lower text ↔ 0x2E ∈ text := mem_lower (by decide) (by decide)

/-- The last bytes of a name without a slash belong to its base name. -/
theorem mem_basenameOf {front back : Bytes} (plain : 0x2F ∉ back) (member : byte ∈ back) :
    byte ∈ basenameOf (front ++ back) := by
  rw [basenameOf, reverse_append, takeWhile_append_of_pos]
  · simp [member]
  · intro other listed
    exact decide_eq_true fun slash => plain (slash ▸ mem_reverse.mp listed)

theorem dot_mem_basenameOf (gguf : isGguf file = true) : 0x2E ∈ basenameOf file := by
  rw [isGguf, Bool.and_eq_true, decide_eq_true_eq, beq_iff_eq] at gguf
  have tail : lower (file.drop (file.length - 5)) = ascii ".gguf" := by
    rw [lower, map_drop]
    exact gguf.2
  rw [← take_append_drop (file.length - 5) file]
  apply mem_basenameOf
  · have slash := (@mem_lower (file.drop (file.length - 5)) 0x2F (by decide) (by decide)).not.mp
    rw [tail] at slash
    exact slash (by decide)
  · rw [← dot_mem_lower, tail]
    decide

theorem basenameOf_isInfix (file : Bytes) : basenameOf file <:+: file := by
  have front := @List.takeWhile_prefix _ file.reverse (· ≠ (0x2F : UInt8))
  rw [basenameOf]
  have back := reverse_suffix.mpr front
  rw [reverse_reverse] at back
  exact back.isInfix

theorem hasText_of_hasTag (tagged : hasTag tag file = true) : hasText (lower file) (lower tag) = true := by
  rw [hasTag, contains_iff_mem] at tagged
  refine hasText_of_infix ((components_isInfix tagged).trans ?_)
  exact (basenameOf_isInfix file).map lowerByte

/-- No file has a name without a dot, so only the second loop finds such a tag. -/
theorem matchTag_plain (gguf : ∀ file ∈ files, isGguf file = true) (plain : 0x2E ∉ tag) :
    matchTag files tag = (firstWith files tag).getD [] := by
  have none : files.find? (fun file => lower file == lower tag || lower (basenameOf file) == lower tag) = none := by
    rw [find?_eq_none]
    intro file member
    have dot := dot_mem_basenameOf (gguf file member)
    have inside : 0x2E ∈ file := (basenameOf_isInfix file).subset dot
    simp only [Bool.or_eq_true, beq_iff_eq, not_or]
    constructor
    · intro same
      exact plain (dot_mem_lower.mp (same ▸ dot_mem_lower.mpr inside))
    · intro same
      exact plain (dot_mem_lower.mp (same ▸ dot_mem_lower.mpr dot))
  rw [matchTag, none]

theorem plain_of_offers (offered : offers files tag = true) : 0x2E ∉ tag := by
  rw [offers, any_eq_true] at offered
  obtain ⟨file, _, fine⟩ := offered
  rw [Bool.and_eq_true, hasTag, contains_iff_mem] at fine
  rw [← dot_mem_lower]
  exact components_plain fine.2

/-- A tag that a file has is found in some file. -/
theorem exists_firstWith (gguf : ∀ file ∈ files, isGguf file = true) (offered : offers files tag = true) :
    ∃ file, firstWith files tag = some file ∧ file ≠ [] := by
  rw [offers, any_eq_true] at offered
  obtain ⟨file, member, fine⟩ := offered
  rw [Bool.and_eq_true] at fine
  have found : (firstWith files tag).isSome = true := by
    rw [firstWith, find?_isSome]
    exact ⟨file, member, by rw [fine.1, hasText_of_hasTag fine.2]; rfl⟩
  obtain ⟨first, same⟩ := Option.isSome_iff_exists.mp found
  refine ⟨first, same, ?_⟩
  rintro rfl
  exact absurd (gguf [] (mem_of_find?_eq_some same)) (by decide)

/-- Preferences without dots are tried by the second loop alone. -/
theorem chooseDefault_plain {spec : HfSpec} {prefs : List Bytes} (gguf : ∀ file ∈ files, isGguf file = true)
    (plain : ∀ pref ∈ prefs, 0x2E ∉ pref) (found : prefs.findSome? (firstWith files) = some file) :
    chooseDefault spec files prefs = .ok file := by
  induction prefs with
  | nil => cases found
  | cons pref more ih =>
    rw [chooseDefault, matchTag_plain gguf (plain pref mem_cons_self)]
    rw [findSome?_cons] at found
    cases first : firstWith files pref with
    | none =>
      rw [first] at found
      exact ih (fun pref member => plain pref (mem_cons_of_mem _ member)) found
    | some other =>
      rw [first] at found
      cases found
      have filled : file ≠ [] := by
        rintro rfl
        exact absurd (gguf [] (mem_of_find?_eq_some first)) (by decide)
      dsimp only [Option.getD_some]
      rw [if_pos filled]

end Choice

/-- The tag of the spec, or the list of preferences if it has none. -/
def Honoured (spec : HfSpec) (files : List Bytes) : Prop :=
  if spec.quant ≠ [] then TagHonoured spec files else DefaultHonoured spec files

/-- The first file in which the tag is found has it, if any has; without a tag, the first file in which
the first preference that can be found is found has the first preference that a file has. -/
def FoundWhole (spec : HfSpec) (files : List Bytes) : Prop :=
  if spec.quant ≠ [] then
    offers files spec.quant = true → ∀ file ∈ firstWith files spec.quant, hasTag spec.quant file = true
  else ∀ pref ∈ preferences.find? (offers files), ∀ file ∈ preferences.findSome? (firstWith files),
    hasTag pref file = true

instance (spec : HfSpec) (files : List Bytes) : Decidable (FoundWhole spec files) :=
  inferInstanceAs (Decidable (if spec.quant ≠ [] then _ else _))

theorem chooseGguf_honours_iff (spec : HfSpec) (files : List Bytes) (gguf : ∀ file ∈ files, isGguf file = true) :
    Honoured spec files ↔ FoundWhole spec files := by
  rw [Honoured, FoundWhole]
  split
  · rename_i tagged
    refine imp_congr_right fun offered => ?_
    obtain ⟨file, found, filled⟩ := exists_firstWith gguf offered
    have chosen : chooseGguf spec files = .ok file := by
      rw [chooseGguf, if_pos tagged, matchTag_plain gguf (plain_of_offers offered), found, Option.getD_some]
      exact if_neg filled
    rw [found, chosen]
    constructor
    · rintro ⟨_, ⟨⟩, fine⟩ _ ⟨⟩
      exact fine
    · exact fun fine => ⟨file, rfl, fine file rfl⟩
  · rename_i untagged
    refine forall_congr' fun pref => imp_congr_right fun first => ?_
    have listed := mem_of_find?_eq_some first
    obtain ⟨other, found, _⟩ := exists_firstWith gguf (find?_some first)
    have some : (preferences.findSome? (firstWith files)).isSome = true := by
      rw [findSome?_isSome_iff]
      exact ⟨pref, listed, by rw [found]; rfl⟩
    obtain ⟨file, same⟩ := Option.isSome_iff_exists.mp some
    have chosen : chooseGguf spec files = .ok file := by
      rw [chooseGguf, if_neg untagged, chooseDefault_plain gguf (by decide) same]
    rw [same, chosen]
    constructor
    · rintro ⟨_, ⟨⟩, fine⟩ _ ⟨⟩
      exact fine
    · exact fun fine => ⟨file, rfl, fine file rfl⟩

theorem chooseGguf_honours_whole :
    Honoured ⟨ascii "o", ascii "r", ascii "Q4_0"⟩ [ascii "m-Q4_0.gguf", ascii "m-q8_0.gguf"] :=
  (chooseGguf_honours_iff _ _ (by decide)).mpr (by decide)

/-- Asked for f16, and also without a tag, the code takes the file with bf16. -/
theorem chooseGguf_takes_bf16 :
    offers [ascii "m-BF16.gguf", ascii "m-F16.gguf"] (ascii "f16") = true ∧
      chooseGguf ⟨ascii "o", ascii "r", ascii "f16"⟩ [ascii "m-BF16.gguf", ascii "m-F16.gguf"] =
        .ok (ascii "m-BF16.gguf") ∧
      preferences.find? (offers [ascii "m-BF16.gguf", ascii "m-F16.gguf"]) = some (ascii "f16") ∧
      chooseGguf ⟨ascii "o", ascii "r", []⟩ [ascii "m-BF16.gguf", ascii "m-F16.gguf"] =
        .ok (ascii "m-BF16.gguf") ∧
      hasTag (ascii "f16") (ascii "m-BF16.gguf") = false := by
  decide

end Iian
