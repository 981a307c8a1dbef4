import Iian.ModelResolve

/- `hf_pull` with a directory of files it has downloaded before. A file in the directory is given by
where its contents come from; downloads that fail, and their partial files, are left out. -/
namespace Iian

open List

/-- A file of a repository. -/
structure Remote where
  org : Bytes
  repo : Bytes
  file : Bytes
deriving DecidableEq, Repr

/-- The names in a directory, in the order in which `list_dir` sorts them, with what they hold. -/
abbrev Directory := List (Bytes × Remote)

/-- `hf_cache_filename`. -/
def hfCacheFilename (org repo file : Bytes) : Bytes :=
  org ++ ascii "__" ++ repo ++ ascii "__" ++ basenameOf file

def Remote.cacheName (remote : Remote) : Bytes := hfCacheFilename remote.org remote.repo remote.file

def Directory.store (name : Bytes) (remote : Remote) : Directory → Directory
  | [] => [(name, remote)]
  | (other, held) :: rest =>
    if name < other then (name, remote) :: (other, held) :: rest else (other, held) :: store name remote rest

/-- The test of the fast path. -/
def isCachedFor (spec : HfSpec) (name : Bytes) : Bool :=
  (lower (spec.org ++ ascii "__" ++ spec.repo ++ ascii "__")).isPrefixOf (lower name) &&
    hasText (lower name) (lower spec.quant) && isGguf name

/-- The fast path: a cached name for this repository and quantization. -/
def Directory.cachedFor (dir : Directory) (spec : HfSpec) : Option Bytes :=
  if spec.quant ≠ [] then (dir.map Prod.fst).find? (isCachedFor spec) else none

/-- The lists of `hf_list_ggufs`, by organisation and repository. -/
abbrev RepoListing := Bytes → Bytes → List Bytes

section Pull

variable (listing : RepoListing) (dir : Directory) (spec : HfSpec)

/-- The file that a spec stands for, or why it cannot be loaded. -/
def RepoListing.select : Except Bytes Remote := do
  let files := listing spec.org spec.repo
  if files = [] then
    .error (ascii "no .gguf files found in huggingface.co/" ++ spec.repoId ++
      ascii " (is it a GGUF repo? try e.g. hf:bartowski/<model>-GGUF)")
  else do
    let file ← chooseGguf spec files
    if hasText (lower file) (ascii "00001-of-") then
      .error (ascii "'" ++ file ++ ascii "' is a multi-part GGUF; sharded models are not supported yet. " ++
        ascii "Pick a different quant.")
    else .ok ⟨spec.org, spec.repo, file⟩

/-- `hf_pull` without `force`: the name of the file in the directory. -/
def hfPull : Directory × Except Bytes Bytes :=
  match dir.cachedFor spec with
  | some name => (dir, .ok name)
  | none =>
    match listing.select spec with
    | .error message => (dir, .error message)
    | .ok remote =>
      if (dir.lookup remote.cacheName).isSome then (dir, .ok remote.cacheName)
      else (dir.store remote.cacheName remote, .ok remote.cacheName)

/-- The file that is returned, if any, is the one that `choose_gguf` selects. -/
def PullRight : Prop :=
  ∀ name, (hfPull listing dir spec).2 = .ok name →
    ∃ file, chooseGguf spec (listing spec.org spec.repo) = .ok file ∧
      (hfPull listing dir spec).1.lookup name = some ⟨spec.org, spec.repo, file⟩

/-- The same of every call of a sequence. -/
def PullsRight (listing : RepoListing) : Directory → List HfSpec → Prop
  | _, [] => True
  | dir, spec :: more => PullRight listing dir spec ∧ PullsRight listing (hfPull listing dir spec).1 more

/-- The file of a spec, stored under its cache name if that is free. -/
def RepoListing.cache : Directory :=
  match listing.select spec with
  | .error _ => dir
  | .ok remote => if (dir.lookup remote.cacheName).isSome then dir else dir.store remote.cacheName remote

/-- Nothing stands in the way of a spec: the first cached name that looks like its file is that of its
file; or there is none, and its cache name is not taken by another file. -/
def RepoListing.Clear : Prop :=
  match dir.cachedFor spec with
  | some name => ∃ file, chooseGguf spec (listing spec.org spec.repo) = .ok file ∧
      dir.lookup name = some ⟨spec.org, spec.repo, file⟩
  | none => ∀ remote, listing.select spec = .ok remote →
      ∀ held ∈ dir.lookup remote.cacheName, held = remote

/-- The same along a sequence of specs whose files are all stored. -/
def RepoListing.AllClear (listing : RepoListing) : Directory → List HfSpec → Prop
  | _, [] => True
  | dir, spec :: more => listing.Clear dir spec ∧ listing.AllClear (listing.cache dir spec) more

end Pull

/-- Every file has the cache name of what it holds. -/
def Directory.Named (dir : Directory) : Prop := ∀ entry ∈ dir, entry.1 = entry.2.cacheName

section Directories

variable {dir : Directory} {name : Bytes} {remote held : Remote}

theorem lookup_store (free : dir.lookup name = none) : (dir.store name remote).lookup name = some remote := by
  induction dir with
  | nil => simp [Directory.store]
  | cons entry rest ih =>
    obtain ⟨other, held⟩ := entry
    rw [lookup_cons] at free
    split at free
    · cases free
    rename_i different
    rw [Directory.store]
    split
    · simp
    · rw [lookup_cons, different]
      exact ih free

theorem mem_store {entry : Bytes × Remote} :
    entry ∈ dir.store name remote ↔ entry = (name, remote) ∨ entry ∈ dir := by
  induction dir with
  | nil => simp [Directory.store]
  | cons first rest ih =>
    rw [Directory.store]
    split
    · exact mem_cons
    · rw [mem_cons, ih, mem_cons]
      exact or_left_comm

theorem mem_of_lookup (found : dir.lookup name = some held) : (name, held) ∈ dir := by
  induction dir with
  | nil => cases found
  | cons entry rest ih =>
    obtain ⟨other, remote⟩ := entry
    rw [lookup_cons] at found
    split at found
    · rename_i same
      cases found
      rw [beq_iff_eq.mp same]
      exact mem_cons_self
    · exact mem_cons_of_mem _ (ih found)

theorem Directory.Named.store (named : dir.Named) : (dir.store remote.cacheName remote).Named := by
  intro entry member
  rcases mem_store.mp member with rfl | member
  · rfl
  · exact named entry member

theorem Directory.Named.name_eq (named : dir.Named) (found : dir.lookup name = some held) :
    name = held.cacheName :=
  named _ (mem_of_lookup found)

end Directories

section Pulls

variable {listing : RepoListing} {dir : Directory} {spec : HfSpec} {remote : Remote}

theorem select_eq (selected : listing.select spec = .ok remote) :
    ∃ file, chooseGguf spec (listing spec.org spec.repo) = .ok file ∧ remote = ⟨spec.org, spec.repo, file⟩ := by
  rw [RepoListing.select] at selected
  split at selected
  · cases selected
  cases chosen : chooseGguf spec (listing spec.org spec.repo) with
  | error message =>
    rw [chosen] at selected
    cases selected
  | ok file =>
    rw [chosen] at selected
    change (if _ then _ else _) = _ at selected
    split at selected
    · cases selected
    · cases selected
      exact ⟨file, rfl, rfl⟩

/-- One call: what is in the way decides. -/
theorem pullRight_iff_clear : PullRight listing dir spec ↔ listing.Clear dir spec := by
  rw [PullRight, RepoListing.Clear, hfPull]
  cases dir.cachedFor spec with
  | some name =>
    constructor
    · exact fun right => right name rfl
    · rintro clear _ ⟨⟩
      exact clear
  | none =>
    cases selected : listing.select spec with
    | error message => exact iff_of_true (by rintro _ ⟨⟩) (by rintro _ ⟨⟩)
    | ok remote =>
      obtain ⟨file, chosen, rfl⟩ := select_eq selected
      dsimp only
      cases found : dir.lookup (Remote.cacheName ⟨spec.org, spec.repo, file⟩) with
      | none =>
        rw [if_neg (by simp)]
        refine iff_of_true ?_ ?_
        · rintro _ ⟨⟩
          exact ⟨file, chosen, lookup_store found⟩
        · rintro _ ⟨⟩ held member
          rw [found] at member
          cases member
      | some held =>
        rw [if_pos (by simp)]
        constructor
        · rintro right _ ⟨⟩ other member
          obtain ⟨again, same, there⟩ := right _ rfl
          rw [chosen] at same
          cases same
          rw [there] at member
          cases member
          rfl
        · rintro clear _ ⟨⟩
          refine ⟨file, chosen, ?_⟩
          dsimp only
          rw [found, clear _ rfl held found]

/-- A call that is right leaves the file of its spec in the directory. -/
theorem hfPull_cache (named : dir.Named) (clear : listing.Clear dir spec) :
    (hfPull listing dir spec).1 = listing.cache dir spec := by
  rw [RepoListing.Clear] at clear
  rw [hfPull, RepoListing.cache]
  cases cached : dir.cachedFor spec with
  | none =>
    cases listing.select spec with
    | error message => rfl
    | ok remote =>
      dsimp only
      split <;> rfl
  | some name =>
    rw [cached] at clear
    obtain ⟨file, chosen, found⟩ := clear
    cases selected : listing.select spec with
    | error message => rfl
    | ok remote =>
      obtain ⟨again, same, rfl⟩ := select_eq selected
      rw [chosen] at same
      cases same
      rw [named.name_eq found] at found
      dsimp only
      rw [if_pos (by rw [found]; rfl)]

theorem cache_named (named : dir.Named) : (listing.cache dir spec).Named := by
  rw [RepoListing.cache]
  split
  · exact named
  · split
    · exact named
    · exact named.store

theorem pullsRight_from {calls : List HfSpec} (named : dir.Named) :
    PullsRight listing dir calls ↔ listing.AllClear dir calls := by
  induction calls generalizing dir with
  | nil => exact Iff.rfl
  | cons spec more ih =>
    rw [PullsRight, RepoListing.AllClear, pullRight_iff_clear]
    refine and_congr_right fun clear => ?_
    rw [hfPull_cache named clear]
    exact ih (cache_named named)

/-- A sequence of calls from an empty directory is right if and only if nothing stands in the way. -/
theorem pullsRight_iff (listing : RepoListing) (calls : List HfSpec) :
    PullsRight listing [] calls ↔ listing.AllClear [] calls :=
  pullsRight_from nofun

end Pulls

/-- Two repositories with one cache name, and two directories of a repository. -/
theorem hfPull_wrong_file :
    (let listing : RepoListing := fun _ _ => [ascii "m-F16.gguf"]
     let first := hfPull listing [] ⟨ascii "a", ascii "b__c", []⟩
     let second := hfPull listing first.1 ⟨ascii "a__b", ascii "c", []⟩
     second.2 = .ok (ascii "a__b__c__m-F16.gguf") ∧
       second.1.lookup (ascii "a__b__c__m-F16.gguf") =
         some ⟨ascii "a", ascii "b__c", ascii "m-F16.gguf"⟩) ∧
      (let listing : RepoListing := fun _ _ => [ascii "x/m.gguf", ascii "y/m.gguf"]
       let first := hfPull listing [] ⟨ascii "o", ascii "r", ascii "x/m.gguf"⟩
       let second := hfPull listing first.1 ⟨ascii "o", ascii "r", ascii "y/m.gguf"⟩
       chooseGguf ⟨ascii "o", ascii "r", ascii "y/m.gguf"⟩ [ascii "x/m.gguf", ascii "y/m.gguf"] =
           .ok (ascii "y/m.gguf") ∧
         second.2 = .ok (ascii "o__r__m.gguf") ∧
         second.1.lookup (ascii "o__r__m.gguf") = some ⟨ascii "o", ascii "r", ascii "x/m.gguf"⟩) := by
  decide

end Iian
