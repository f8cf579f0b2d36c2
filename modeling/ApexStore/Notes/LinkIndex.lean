import ApexStore.Core.LogRecord

/-!
# The link index of the notes

`link:{target}` lists the notes that link to a note, `backlink:{source}` those
that a note links to.  When a note is indexed again, what changed among its
targets is brought into the lists of the targets.  Both directions tell the
same links after every run (`link_index_is_bidirectional`).
-/

namespace ApexStore

open List

/-- `serde_json` on lists of texts, with the values `ν` it writes. -/
structure TextListJson (ν : Type) where
  toString : List String → ν
  fromStr : ν → Except String (List String)
  fromStr_toString : ∀ texts, fromStr (toString texts) = .ok texts

/-- The engine as the link index uses it: a map. -/
abbrev LinkStore (ν : Type) := NameMap ν

variable {ν : Type}

def linkKey (note : String) : String := "link:" ++ note

def backlinkKey (note : String) : String := "backlink:" ++ note

structure LinkDiff where
  added : List String
  removed : List String

def computeLinkDiff (old new : List String) : LinkDiff where
  added := new.filter (!old.contains ·)
  removed := old.filter (!new.contains ·)

namespace LinkStore

variable (json : TextListJson ν) (store : LinkStore ν)

/-- The list under a key, empty where nothing is stored. -/
def getLinks (key : String) : Except LsmError (List String) :=
  match store[key]? with
  | some bytes => (json.fromStr bytes).mapError
      fun error => .invalidArgument ("JSON parse error: " ++ error)
  | none => .ok []

def getBacklinks (note : String) : Except LsmError (List String) :=
  store.getLinks json (linkKey note)

def getForwardLinks (note : String) : Except LsmError (List String) :=
  store.getLinks json (backlinkKey note)

/-- The list under a key, empty also where the bytes are no list. -/
def read (key : String) : List String :=
  (store.getLinks json key).toOption.getD []

def addToLinkIndex (source : String) (store : LinkStore ν) (target : String) :
    LinkStore ν :=
  let sources := store.read json (linkKey target)
  if sources.contains source then store
  else store.insert (linkKey target) (json.toString (sources ++ [source]))

def removeFromLinkIndex (source : String) (store : LinkStore ν) (target : String) :
    LinkStore ν :=
  match store[linkKey target]? with
  | some _ =>
    let sources := (store.read json (linkKey target)).filter (· ≠ source)
    if sources.isEmpty then store.erase (linkKey target)
    else store.insert (linkKey target) (json.toString sources)
  | none => store

def indexLinks (note : String) (targets : List String) :
    Except LsmError LinkDiff × LinkStore ν :=
  match store.getForwardLinks json note with
  | .error error => (.error error, store)
  | .ok current =>
    let diff := computeLinkDiff current targets
    let store := diff.removed.foldl (removeFromLinkIndex json note) store
    let store := diff.added.foldl (addToLinkIndex json note) store
    (.ok diff, store.insert (backlinkKey note) (json.toString targets))

def removeNoteLinks (note : String) : Except LsmError Unit × LinkStore ν :=
  match store.getForwardLinks json note with
  | .error error => (.error error, store)
  | .ok targets =>
    let store := targets.foldl (removeFromLinkIndex json note) store
    (.ok (), store.erase (backlinkKey note))

end LinkStore

inductive LinkCall where
  | indexLinks (note : String) (targets : List String)
  | removeNoteLinks (note : String)

def LinkCall.step (json : TextListJson ν) (store : LinkStore ν) :
    LinkCall → LinkStore ν
  | indexLinks note targets => (store.indexLinks json note targets).2
  | removeNoteLinks note => (store.removeNoteLinks json note).2

/-! ## Single writes -/

theorem linkKey_inj {left right : String} :
    linkKey left = linkKey right ↔ left = right := by
  simp [linkKey, ← String.toList_inj]

theorem backlinkKey_inj {left right : String} :
    backlinkKey left = backlinkKey right ↔ left = right := by
  simp [backlinkKey, ← String.toList_inj]

theorem linkKey_ne_backlinkKey (target source : String) :
    linkKey target ≠ backlinkKey source := by
  simp [linkKey, backlinkKey, ← String.toList_inj]

namespace LinkStore

variable {json : TextListJson ν} {store : LinkStore ν} {source target key : String}

theorem getLinks_insert (texts : List String) (other : String) :
    getLinks json (store.insert key (json.toString texts)) other =
      if key = other then .ok texts else store.getLinks json other := by
  by_cases same : key = other
  · simp [getLinks, same, json.fromStr_toString, Except.mapError]
  · simp [getLinks, NameMap.getElem?_insert, same]

theorem getLinks_erase (other : String) :
    getLinks json (store.erase key) other =
      if key = other then .ok [] else store.getLinks json other := by
  by_cases same : key = other <;>
    simp [getLinks, Std.ExtTreeMap.getElem?_erase, same]

theorem read_insert (texts : List String) (other : String) :
    read json (store.insert key (json.toString texts)) other =
      if key = other then texts else store.read json other := by
  rw [read, getLinks_insert]
  split <;> rfl

theorem read_erase (other : String) :
    read json (store.erase key) other =
      if key = other then [] else store.read json other := by
  rw [read, getLinks_erase]
  split <;> rfl

theorem read_addToLinkIndex (key : String) :
    (store.addToLinkIndex json source target).read json key =
      if linkKey target = key ∧ source ∉ store.read json key then
        store.read json key ++ [source]
      else store.read json key := by
  unfold addToLinkIndex
  by_cases here : linkKey target = key
  · subst here
    by_cases present : source ∈ store.read json (linkKey target)
    · simp [present]
    · simp [present, read_insert]
  · dsimp only
    split
    · simp [here]
    · simp [here, read_insert]

theorem read_removeFromLinkIndex (key : String) :
    (store.removeFromLinkIndex json source target).read json key =
      if linkKey target = key then (store.read json key).filter (· ≠ source)
      else store.read json key := by
  unfold removeFromLinkIndex
  by_cases here : linkKey target = key
  · subst here
    rw [if_pos rfl]
    split
    · dsimp only
      split
      · next empty => rw [read_erase, if_pos rfl, isEmpty_iff.mp empty]
      · rw [read_insert, if_pos rfl]
    · next missing => simp [read, getLinks, missing, Except.toOption]
  · rw [if_neg here]
    split
    · dsimp only
      split
      · rw [read_erase, if_neg here]
      · rw [read_insert, if_neg here]
    · rfl

/-- What is stored are lists. -/
def Readable (json : TextListJson ν) (store : LinkStore ν) : Prop :=
  ∀ key, store.getLinks json key = .ok (store.read json key)

namespace Readable

variable (readable : store.Readable json)
include readable

theorem insert (texts : List String) :
    Readable json (store.insert key (json.toString texts)) := by
  intro other
  rw [getLinks_insert, read_insert]
  split
  · rfl
  · exact readable other

theorem erase : Readable json (store.erase key) := by
  intro other
  rw [getLinks_erase, read_erase]
  split
  · rfl
  · exact readable other

theorem add : (store.addToLinkIndex json source target).Readable json := by
  unfold addToLinkIndex
  dsimp only
  split
  · exact readable
  · exact readable.insert _

theorem remove : (store.removeFromLinkIndex json source target).Readable json := by
  unfold removeFromLinkIndex
  split
  · dsimp only
    split
    · exact readable.erase
    · exact readable.insert _
  · exact readable

end Readable

end LinkStore

open LinkStore

/-! ## Runs -/

/-- The targets of every note, and for every note the sources that link to it,
each once. -/
structure Listed (json : TextListJson ν) (store : LinkStore ν)
    (forward : String → List String) (links : String → String → Prop) : Prop where
  readable : store.Readable json
  forward : ∀ note, store.read json (backlinkKey note) = forward note
  members : ∀ source target,
    source ∈ store.read json (linkKey target) ↔ links source target
  distinct : ∀ target, (store.read json (linkKey target)).Nodup

variable {json : TextListJson ν}

namespace Listed

variable {store : LinkStore ν} {forward : String → List String}
  {links : String → String → Prop}

section

variable (listed : Listed json store forward links)
include listed

theorem congr {others : String → String → Prop}
    (same : ∀ source target, links source target ↔ others source target) :
    Listed json store forward others :=
  { listed with
    members := fun source target =>
      (listed.members source target).trans (same source target) }

theorem add (source target : String) :
    Listed json (store.addToLinkIndex json source target) forward
      (fun other note => links other note ∨ other = source ∧ note = target) := by
  refine ⟨listed.readable.add, fun note => ?_, fun other note => ?_, fun note => ?_⟩
  · rw [← listed.forward, read_addToLinkIndex,
      if_neg (fun both => linkKey_ne_backlinkKey target note both.1)]
  · have members := listed.members other note
    rw [read_addToLinkIndex]
    split
    · next both =>
      rw [mem_append, mem_singleton, members]
      simp [linkKey_inj.mp both.1]
    · next neither =>
      rw [members]
      refine ⟨.inl, fun linked => linked.elim id ?_⟩
      rintro ⟨rfl, rfl⟩
      rw [← members]
      by_contra absent
      exact neither ⟨rfl, absent⟩
  · rw [read_addToLinkIndex]
    split
    · next both =>
      rw [← concat_eq_append]
      exact (listed.distinct note).concat both.2
    · exact listed.distinct note

theorem remove (source target : String) :
    Listed json (store.removeFromLinkIndex json source target) forward
      (fun other note => links other note ∧ ¬ (other = source ∧ note = target)) := by
  refine ⟨listed.readable.remove, fun note => ?_, fun other note => ?_, fun note => ?_⟩
  · rw [← listed.forward, read_removeFromLinkIndex,
      if_neg (linkKey_ne_backlinkKey target note)]
  · have members := listed.members other note
    rw [read_removeFromLinkIndex]
    simp only [linkKey_inj]
    split
    · next here =>
      rw [mem_filter, members]
      simp [here]
    · next apart =>
      rw [members]
      simp [Ne.symm apart]
  · rw [read_removeFromLinkIndex]
    split
    · exact (listed.distinct note).filter _
    · exact listed.distinct note

theorem addAll (source : String) (targets : List String) :
    Listed json (targets.foldl (addToLinkIndex json source) store) forward
      (fun other note => links other note ∨ other = source ∧ note ∈ targets) := by
  induction targets generalizing store links with
  | nil => exact listed.congr (by simp)
  | cons target targets ih =>
    refine (ih (listed.add source target)).congr fun other note => ?_
    rw [mem_cons]
    tauto

theorem removeAll (source : String) (targets : List String) :
    Listed json (targets.foldl (removeFromLinkIndex json source) store) forward
      (fun other note => links other note ∧ ¬ (other = source ∧ note ∈ targets)) := by
  induction targets generalizing store links with
  | nil => exact listed.congr (by simp)
  | cons target targets ih =>
    refine (ih (listed.remove source target)).congr fun other note => ?_
    rw [mem_cons]
    tauto

end

theorem store_targets {after : LinkStore ν} {note : String} {targets : List String}
    (listed : Listed json store forward links) (readable : after.Readable json)
    (reads : ∀ key, after.read json key =
      if backlinkKey note = key then targets else store.read json key) :
    Listed json after (fun other => if note = other then targets else forward other)
      links := by
  refine ⟨readable, fun other => ?_, fun source target => ?_, fun target => ?_⟩
  · rw [reads, ← listed.forward]
    simp only [backlinkKey_inj]
  · rw [← listed.members, reads, if_neg (linkKey_ne_backlinkKey target note).symm]
  · rw [reads, if_neg (linkKey_ne_backlinkKey target note).symm]
    exact listed.distinct target

end Listed

def Mirrored (json : TextListJson ν) (store : LinkStore ν) : Prop :=
  ∃ forward : String → List String,
    Listed json store forward (fun source target => target ∈ forward source)

theorem Mirrored.step {store : LinkStore ν} (mirrored : Mirrored json store)
    (call : LinkCall) : Mirrored json (call.step json store) := by
  obtain ⟨forward, listed⟩ := mirrored
  have found (note : String) : store.getForwardLinks json note = .ok (forward note) :=
    (listed.readable _).trans (congrArg _ (listed.forward note))
  cases call with
  | indexLinks note targets =>
    rw [LinkCall.step, indexLinks, found]
    have changed := (listed.removeAll note
      (computeLinkDiff (forward note) targets).removed).addAll note
        (computeLinkDiff (forward note) targets).added
    refine ⟨_, (changed.store_targets (changed.readable.insert targets)
      (read_insert targets)).congr fun source target => ?_⟩
    by_cases here : note = source
    · subst here
      simp only [computeLinkDiff, mem_filter, Bool.not_eq_true', contains_eq_mem,
        decide_eq_false_iff_not, true_and, if_true]
      tauto
    · simp [here, Ne.symm here]
  | removeNoteLinks note =>
    rw [LinkCall.step, removeNoteLinks, found]
    have changed := listed.removeAll note (forward note)
    refine ⟨_, (changed.store_targets changed.readable.erase
      read_erase).congr fun source target => ?_⟩
    by_cases here : note = source
    · subst here
      simp
    · simp [here, Ne.symm here]

theorem Mirrored.run {store : LinkStore ν} (mirrored : Mirrored json store)
    (calls : List LinkCall) :
    Mirrored json (calls.foldl (LinkCall.step json) store) := by
  induction calls generalizing store with
  | nil => exact mirrored
  | cons call calls ih => exact ih (mirrored.step call)

/-- After every run all lists are read, a note is among the backlinks of
another one exactly if that one is among its forward links, and it is listed
once. -/
theorem link_index_is_bidirectional (json : TextListJson ν) (calls : List LinkCall) :
    let store := calls.foldl (LinkCall.step json) ∅
    ∃ backlinks forwardLinks : String → List String,
      (∀ note, store.getBacklinks json note = .ok (backlinks note) ∧
        store.getForwardLinks json note = .ok (forwardLinks note)) ∧
      (∀ source target,
        source ∈ backlinks target ↔ target ∈ forwardLinks source) ∧
      ∀ target, (backlinks target).Nodup := by
  intro store
  have initial : Mirrored json ∅ := by
    refine ⟨fun _ => [], fun key => ?_, ?_, ?_, ?_⟩ <;>
      simp [LinkStore.read, getLinks, Except.toOption]
  obtain ⟨forward, listed⟩ := initial.run calls
  refine ⟨fun note => store.read json (linkKey note), forward, fun note => ?_,
    listed.members, listed.distinct⟩
  refine ⟨listed.readable _, ?_⟩
  rw [← listed.forward]
  exact listed.readable _

/-- A target that is named twice, and a note that is removed. -/
example :
    let json : TextListJson (List String) := ⟨id, .ok, fun _ => rfl⟩
    let calls := [LinkCall.indexLinks "a" ["b", "b"], .indexLinks "c" ["b"],
      .removeNoteLinks "a"]
    (calls.foldl (LinkCall.step json) ∅).getBacklinks json "b" = .ok ["c"] := by
  decide +kernel

end ApexStore
