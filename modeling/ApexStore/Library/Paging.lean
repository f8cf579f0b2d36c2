import Mathlib

/-!
# Reading a sorted table page by page

A table is a list of rows in strictly increasing key order.  A page is its
beginning from some bound on; the key of the last row of a page tells where
the next one starts.  `Follows` is the client that asks for one page after the
other until an answer names no further cursor, and `Follows.of_rest` the rule
by which such a client sees every row once: each answer is the beginning of
the rows that remain, and its cursor stands for the others.  `walk` is a
reader that computes its own bounds from the keys it has seen; it sees every
row once just if each bound cuts where the page ends (`Sorted.walk_iff`).
-/

namespace ApexStore.Paging

open List

section Rows

variable {size : Nat}

theorem split_page {ρ : Type*} {rows : List ρ} {last : ρ}
    (ends : (rows.take size).getLast? = some last) :
    ∃ front, rows.take size = front ++ [last] ∧
      rows = front ++ last :: rows.drop size := by
  obtain ⟨front, page⟩ := List.getLast?_eq_some_iff.mp ends
  refine ⟨front, page, ?_⟩
  calc rows = rows.take size ++ rows.drop size := (take_append_drop size rows).symm
    _ = front ++ last :: rows.drop size := by rw [page]; simp

variable {κ ν : Type*} [LinearOrder κ]

def Sorted (rows : List (κ × ν)) : Prop :=
  rows.Pairwise (fun left right => left.1 < right.1)

variable {front rest : List (κ × ν)} {last : κ × ν}

section

variable (sorted : Sorted (front ++ last :: rest))
include sorted

theorem Sorted.around :
    (∀ row ∈ front, row.1 < last.1) ∧ ∀ row ∈ rest, last.1 < row.1 := by
  obtain ⟨_, tail, across⟩ := pairwise_append.mp sorted
  constructor
  · intro row member
    exact across row member last mem_cons_self
  · intro row member
    exact rel_of_pairwise_cons tail member

theorem Sorted.filter_above :
    (front ++ last :: rest).filter (fun row => decide (last.1 < row.1)) = rest := by
  obtain ⟨before, behind⟩ := sorted.around
  have none_before : front.filter (fun row => decide (last.1 < row.1)) = [] := by
    rw [filter_eq_nil_iff]
    intro row member above
    exact lt_asymm (of_decide_eq_true above) (before row member)
  rw [filter_append, none_before, nil_append, filter_cons_of_neg (by simp), filter_eq_self]
  exact fun row member => decide_eq_true (behind row member)

theorem Sorted.filter_from :
    (front ++ last :: rest).filter (fun row => decide (last.1 ≤ row.1)) = last ::
      rest := by
  obtain ⟨before, behind⟩ := sorted.around
  have none_before : front.filter (fun row => decide (last.1 ≤ row.1)) = [] := by
    rw [filter_eq_nil_iff]
    intro row member above
    exact not_lt_of_ge (of_decide_eq_true above) (before row member)
  rw [filter_append, none_before, nil_append, filter_cons_of_pos (by simp),
    filter_eq_self.mpr]
  exact fun row member => decide_eq_true (le_of_lt (behind row member))

end

/-- The rows behind a cursor: the key of the last row that was seen. -/
def above (rows : List (κ × ν)) : Option κ → List (κ × ν)
  | none => rows
  | some key => rows.filter (fun row => decide (key < row.1))

variable {rows : List (κ × ν)}

theorem mem_above {cursor : Option κ} {row : κ × ν} : row ∈ above rows cursor ↔
      row ∈ rows ∧ ∀ key, cursor = some key → key < row.1 := by
  cases cursor with
  | none | some key => simp [above]

theorem Sorted.sorted_above (sorted : Sorted rows) (cursor : Option κ) :
    Sorted (above rows cursor) := by
  cases cursor with
  | none => exact sorted
  | some key => exact sorted.sublist filter_sublist

theorem filter_above_above {cursor : Option κ} (member : last ∈ above rows cursor) :
    (above rows cursor).filter (fun row => decide (last.1 < row.1)) =
      above rows (some last.1) := by
  cases cursor with
  | none => rfl
  | some key =>
    have later : key < last.1 := (mem_above.mp member).2 key rfl
    rw [above, filter_filter]
    apply filter_congr
    intro row _
    by_cases behind : last.1 < row.1
    · simp [lt_trans later behind]
    · simp [behind]

/-- The key of the last row of a page is the cursor for the rows it leaves
out. -/
theorem Sorted.above_eq_append (sorted : Sorted rows) {cursor : Option κ}
    (ends : ((above rows cursor).take size).getLast? = some last) :
    above rows cursor = (above rows cursor).take size ++ above rows (some last.1) := by
  have member : last ∈ above rows cursor := mem_of_mem_take (mem_of_getLast? ends)
  obtain ⟨front, _, split⟩ := split_page ends
  have ordered := sorted.sorted_above cursor
  have behind : (above rows cursor).filter (fun row => decide (last.1 < row.1)) =
        (above rows cursor).drop size := by
    rw [split] at ordered
    rw [← ordered.filter_above, ← split]
  rw [← filter_above_above member, behind, take_append_drop]

theorem Sorted.filter_from_row (sorted : Sorted rows) (member : last ∈ rows) :
    rows.filter (fun row => decide (last.1 ≤ row.1)) = last ::
      above rows (some last.1) := by
  obtain ⟨front, rest, rfl⟩ := append_of_mem member
  rw [sorted.filter_from, above, sorted.filter_above]

theorem skip_cursor [BEq κ] [LawfulBEq κ] (rows : List (κ × ν)) (last : κ × ν)
    (size : Nat) :
    (last :: (above rows (some last.1)).take size).dropWhile
      (fun row => row.1 == last.1) =
      (above rows (some last.1)).take size := by
  rw [dropWhile_cons_of_pos (by simp), dropWhile_eq_self_iff]
  intro nonempty
  have member := mem_of_mem_take (getElem_mem nonempty)
  simpa using ((mem_above.mp member).2 last.1 rfl).ne'

end Rows

section Client

variable {σ γ ρ : Type*}

/-- A client follows the cursors it is given.  The server answers with rows
and perhaps a cursor, or fails. -/
inductive Follows (serve : Option γ → σ → Option (List ρ × Option γ) × σ) :
    Option γ → σ → List ρ → σ → Prop
  | last {cursor : Option γ} {state after : σ} {rows : List ρ}
      (answer : serve cursor state = (some (rows, none), after)) :
      Follows serve cursor state rows after
  | more {cursor : Option γ} {state between after : σ} {rows rest : List ρ}
      {next : γ} (answer : serve cursor state = (some (rows, some next), between))
      (later : Follows serve (some next) between rest after) :
      Follows serve cursor state (rows ++ rest) after

variable {serve : Option γ → σ → Option (List ρ × Option γ) × σ}

theorem Follows.unique {cursor : Option γ} {state after after' : σ}
    {rows rows' : List ρ} (follows : Follows serve cursor state rows after)
    (follows' : Follows serve cursor state rows' after') :
    rows = rows' ∧ after = after' := by
  induction follows generalizing rows' with
  | last answer =>
    cases follows' with
    | last answer' =>
      rw [answer] at answer'
      cases answer'
      exact ⟨rfl, rfl⟩
    | more answer' _ =>
      rw [answer] at answer'
      cases answer'
  | more answer _ ih =>
    cases follows' with
    | last answer' =>
      rw [answer] at answer'
      cases answer'
    | more answer' later' =>
      rw [answer] at answer'
      cases answer'
      obtain ⟨rfl, rfl⟩ := ih later'
      exact ⟨rfl, rfl⟩

/-- What an answer does to the rows that remain: it ends them, or gives the
first of them and a cursor for the others. -/
def Advances (rest : Option γ → List ρ) (cursor : Option γ) : List ρ × Option γ → Prop
  | (rows, none) => rows = rest cursor
  | (rows, some next) => rows ≠ [] ∧ rest cursor = rows ++ rest (some next)

/-- If every answer advances through the rows that remain at its cursor, the
client sees them all. -/
theorem Follows.of_rest {good : σ → Prop} (rest : Option γ → List ρ)
    (valid : Option γ → Prop) (serves : ∀ cursor state, valid cursor → good state →
      ∃ answer after, serve cursor state = (some answer, after) ∧
        good after ∧ Advances rest cursor answer ∧ ∀ next, answer.2 = some next →
          valid (some next))
    {cursor : Option γ} (start : valid cursor) {state : σ} (fine : good state) :
    ∃ after, Follows serve cursor state (rest cursor) after ∧ good after := by
  generalize size : (rest cursor).length = count
  induction count using Nat.strongRecOn generalizing cursor state with
  | ind count ih =>
    obtain ⟨⟨rows, next⟩, between, answer, still, advances, valid'⟩ :=
      serves cursor state start fine
    cases next with
    | none =>
      rw [← show rows = rest cursor from advances]
      exact ⟨between, .last answer, still⟩
    | some next =>
      obtain ⟨nonempty, split⟩ := advances
      have fewer : (rest (some next)).length < count := by
        rw [← size, split, length_append]
        have positive := length_pos_iff.mpr nonempty
        omega
      obtain ⟨after, later, good'⟩ := ih _ fewer (valid' next rfl) still rfl
      rw [split]
      exact ⟨after, .more answer later, good'⟩

end Client

section Pages

variable {κ ν σ γ : Type*} [LinearOrder κ]

/-- An answer with the first rows behind the cursor, and a cursor that stands
for the last of them if there are more. -/
structure PageOf (rows : List (κ × ν)) (limit : Nat) (locate : γ → κ)
    (cursor : Option γ) (answer : List (κ × ν) × Option γ) : Prop where
  page : answer.1 = (above rows (cursor.map locate)).take limit
  done : (above rows (cursor.map locate)).length ≤ limit → answer.2 = none
  more : limit < (above rows (cursor.map locate)).length →
    ∃ next last, answer.2 = some next ∧ answer.1.getLast? = some last ∧ locate next = last.1

def Locates (rows : List (κ × ν)) (locate : γ → κ) (cursor : Option γ) : Prop :=
  ∀ key, cursor = some key → ∃ row ∈ rows, row.1 = locate key

variable {rows : List (κ × ν)} {limit : Nat} {locate : γ → κ}
  {cursor : Option γ} {answer : List (κ × ν) × Option γ}

/-- A server that fetches one row more than a page holds knows whether there
are more. -/
theorem PageOf.of_lookahead {results : List (κ × ν)} {name : κ × ν → Option γ}
    (named : ∀ row ∈ rows, ∃ key, name row = some key ∧ locate key = row.1)
    (positive : 0 < limit)
    (found : results = (above rows (cursor.map locate)).take (limit + 1)) :
    PageOf rows limit locate cursor
      (results.take limit, if decide (limit < results.length) then
          (results.take limit).getLast?.bind name else none) := by
  have page : results.take limit = (above rows (cursor.map locate)).take limit := by
    rw [found, take_take, Nat.min_eq_left (Nat.le_succ limit)]
  refine ⟨page, ?_, ?_⟩
  · intro all
    have short : ¬ limit < results.length := by
      rw [found, length_take]
      omega
    simp [short]
  · intro more
    have long : limit < results.length := by
      rw [found, length_take]
      omega
    have nonempty : results.take limit ≠ [] := by
      apply ne_nil_of_length_pos
      rw [length_take]
      omega
    have ends := List.getLast?_eq_some_getLast nonempty
    generalize (results.take limit).getLast nonempty = last at ends
    have listed := mem_of_getLast? ends
    rw [page] at listed
    obtain ⟨key, called, same⟩ := named last (mem_above.mp (mem_of_mem_take listed)).1
    refine ⟨key, last, ?_, ends, same⟩
    simp [long, ends, called]

theorem PageOf.advances (page : PageOf rows limit locate cursor answer)
    (sorted : Sorted rows) :
    Advances (fun cursor => above rows (cursor.map locate)) cursor answer ∧
      ∀ next, answer.2 = some next → Locates rows locate (some next) := by
  obtain ⟨seen, cursor'⟩ := answer
  have taken : seen = (above rows (cursor.map locate)).take limit := page.page
  rcases Nat.lt_or_ge limit (above rows (cursor.map locate)).length with more | all
  · obtain ⟨next, last, rfl, ends, same⟩ := page.more more
    rw [taken] at ends
    have member : last ∈ above rows (cursor.map locate) :=
      mem_of_mem_take (mem_of_getLast? ends)
    constructor
    · refine ⟨?_, ?_⟩
      · rw [taken]
        rintro empty
        rw [empty] at ends
        cases ends
      · dsimp only
        rw [taken, Option.map_some, same]
        exact sorted.above_eq_append ends
    · rintro _ ⟨rfl⟩ key ⟨rfl⟩
      exact ⟨last, (mem_above.mp member).1, same.symm⟩
  · obtain rfl : cursor' = none := page.done all
    refine ⟨?_, fun next absent => by cases absent⟩
    exact taken.trans (take_of_length_le all)

variable {serve : Option γ → σ → Option (List (κ × ν) × Option γ) × σ}

theorem Follows.of_pages {good : σ → Prop} (sorted : Sorted rows)
    (serves : ∀ cursor state, Locates rows locate cursor → good state →
      ∃ answer after, serve cursor state = (some answer, after) ∧
        good after ∧ PageOf rows limit locate cursor answer) {state : σ}
          (fine : good state) :
    ∃ after, Follows serve none state rows after ∧ good after := by
  have start : Locates rows locate none := by
    intro key absent
    cases absent
  refine of_rest (fun cursor => above rows (cursor.map locate))
    (Locates rows locate) ?_ start fine
  intro cursor state located fine
  obtain ⟨answer, after, served, still, page⟩ := serves cursor state located fine
  obtain ⟨advances, valid⟩ := page.advances sorted
  exact ⟨answer, after, served, still, advances, valid⟩

end Pages

section Walk

variable {κ ν : Type*} [LinearOrder κ]

def fromBound (rows : List (κ × ν)) : Option κ → List (κ × ν)
  | none => rows
  | some key => rows.filter (fun row => decide (key ≤ row.1))

/-- A reader that computes where the next page starts from the last key of a
full page, and stops at a page that is not full.  The number bounds the
pages. -/
def walk (next : κ → κ) (size : Nat) (rows : List (κ × ν)) : Nat → Option κ →
    Option (List (κ × ν))
  | 0, _ => none
  | pages + 1, lower =>
    let page := (fromBound rows lower).take size
    if page.length < size then some page
    else
      match page.getLast? with
      | none => some page
      | some last =>
        (walk next size rows pages (some (next last.1))).map (page ++ ·)

variable {next : κ → κ} {size : Nat} {rows : List (κ × ν)} {last : κ × ν}

/-- The bound behind a row leaves out the rows up to it and no other. -/
def CutsAt (next : κ → κ) (rows : List (κ × ν)) (count : Nat) (last : κ × ν) : Prop :=
  last.1 < next last.1 ∧ ∀ row ∈ rows.drop count, next last.1 ≤ row.1

variable {count : Nat}

theorem Sorted.fromBound_eq_drop_iff (sorted : Sorted rows)
    (ends : (rows.take count).getLast? = some last) :
    fromBound rows (some (next last.1)) = rows.drop count ↔
      CutsAt next rows count last := by
  obtain ⟨front, page, split⟩ := split_page ends
  have before : ∀ row ∈ rows.take count, row.1 ≤ last.1 := by
    intro row member
    rw [page] at member
    rcases mem_append.mp member with earlier | same
    · rw [split] at sorted
      exact (sorted.around.1 row earlier).le
    · rw [mem_singleton.mp same]
  constructor
  · intro cut
    refine ⟨?_, ?_⟩
    · by_contra low
      have listed : last ∈ fromBound rows (some (next last.1)) := by
        rw [fromBound, mem_filter]
        refine ⟨?_, decide_eq_true (not_lt.mp low)⟩
        exact mem_of_mem_take (mem_of_getLast? ends)
      rw [cut] at listed
      rw [split] at sorted
      exact lt_irrefl _ (sorted.around.2 last listed)
    · intro row member
      rw [← cut, fromBound, mem_filter] at member
      exact of_decide_eq_true member.2
  · rintro ⟨above_last, below_rest⟩
    have none_before :
        (rows.take count).filter (fun row => decide (next last.1 ≤ row.1)) = [] := by
      rw [filter_eq_nil_iff]
      intro row member reached
      exact not_le_of_gt above_last ((of_decide_eq_true reached).trans (before row member))
    rw [fromBound]
    nth_rewrite 1 [← take_append_drop count rows]
    rw [filter_append, none_before, nil_append, filter_eq_self]
    exact fun row member => decide_eq_true (below_rest row member)

theorem walk_page {pages : Nat} {lower : Option κ} {seen : List (κ × ν)}
    (walked : walk next size rows pages lower = some seen) :
    (fromBound rows lower).take size <+: seen ∧
      (fromBound rows lower = [] → seen = []) := by
  cases pages with
  | zero => cases walked
  | succ pages =>
    rw [walk] at walked
    constructor
    · split at walked
      · cases walked
        exact prefix_refl _
      · split at walked
        · cases walked
          exact prefix_refl _
        · obtain ⟨rest, _, rfl⟩ := Option.map_eq_some_iff.mp walked
          exact prefix_append _ _
    · intro empty
      simp only [empty, take_nil, List.getLast?_nil, ite_self, Option.some.injEq] at walked
      exact walked.symm

/-- The rows from a bound on that start as the rows behind a page do are the
rows behind it. -/
theorem Sorted.fromBound_eq_drop (sorted : Sorted rows) {key : κ} (positive : 0 < size)
    (starts : (fromBound rows (some key)).take size <+: rows.drop count)
    (ends : fromBound rows (some key) = [] → rows.drop count = []) :
    fromBound rows (some key) = rows.drop count := by
  cases found : fromBound rows (some key) with
  | nil => exact (ends found).symm
  | cons head tail =>
    obtain ⟨rest, split⟩ := starts
    obtain ⟨fewer, rfl⟩ := Nat.exists_eq_succ_of_ne_zero positive.ne'
    rw [found, take_succ_cons, cons_append] at split
    have parts : rows = rows.take count ++ head :: (tail.take fewer ++ rest) := by
      rw [split, take_append_drop]
    have around : (∀ row ∈ rows.take count, row.1 < head.1) ∧
        ∀ row ∈ tail.take fewer ++ rest, head.1 < row.1 := by
      rw [parts] at sorted
      exact sorted.around
    have reached : key ≤ head.1 := by
      have listed : head ∈ fromBound rows (some key) := found ▸ mem_cons_self
      exact of_decide_eq_true (mem_filter.mp listed).2
    have behind : (rows.drop count).filter (fun row => decide (key ≤ row.1)) = rows.drop count := by
      rw [filter_eq_self, ← split]
      intro row member
      rcases mem_cons.mp member with rfl | later
      · exact decide_eq_true reached
      · exact decide_eq_true (reached.trans (around.2 row later).le)
    have halves : fromBound rows (some key) =
        (rows.take count).filter (fun row => decide (key ≤ row.1)) ++ rows.drop count := by
      rw [fromBound]
      nth_rewrite 1 [← take_append_drop count rows]
      rw [filter_append, behind]
    cases early : (rows.take count).filter (fun row => decide (key ≤ row.1)) with
    | nil => rw [← found, halves, early, nil_append]
    | cons first others =>
      rw [halves, early] at found
      obtain ⟨rfl, _⟩ := List.cons.inj found
      have listed : first ∈ rows.take count := (mem_filter.mp (early ▸ mem_cons_self)).1
      exact absurd (around.1 first listed) (lt_irrefl _)

/-- Every page that is full ends where the bound behind its last key cuts. -/
def PagesCut (next : κ → κ) (size : Nat) (rows : List (κ × ν)) (seen : Nat) : Prop :=
  ∀ page last, seen + (page + 1) * size ≤ rows.length →
    (rows.take (seen + (page + 1) * size)).getLast? = some last →
      CutsAt next rows (seen + (page + 1) * size) last

variable {seen : Nat}

theorem PagesCut.step :
    PagesCut next size rows seen ↔ (∀ last, seen + size ≤ rows.length →
        (rows.take (seen + size)).getLast? = some last →
          CutsAt next rows (seen + size) last) ∧
      PagesCut next size rows (seen + size) := by
  have shifted : ∀ page :
      Nat, seen + size + (page + 1) * size = seen + (page + 1 + 1) * size := by
    intro page
    rw [Nat.succ_mul (page + 1) size]
    omega
  constructor
  · intro cut
    refine ⟨fun last => ?_, fun page last => ?_⟩
    · simpa using cut 0 last
    · rw [shifted]
      exact cut (page + 1) last
  · rintro ⟨first, later⟩ page last
    cases page with
    | zero => simpa using first last
    | succ page =>
      rw [← shifted]
      exact later page last

theorem walk_short {lower : Option κ} (here : fromBound rows lower = rows.drop seen)
    (short : rows.length < seen + size) (pages : Nat) :
    walk next size rows (pages + 1) lower = some (rows.drop seen) := by
  have all : (rows.drop seen).length < size ∨ size = 0 := by
    rw [length_drop]
    omega
  rw [walk, here]
  rcases all with all | rfl
  · rw [take_of_length_le all.le, if_pos all]
  · have none_left : rows.drop seen = [] := drop_eq_nil_of_le (by omega)
    simp [none_left]

theorem walk_full {lower : Option κ} (here : fromBound rows lower = rows.drop seen)
    (positive : 0 < size) (full : seen + size ≤ rows.length)
    (ends : (rows.take (seen + size)).getLast? = some last) (pages : Nat) :
    walk next size rows (pages + 1) lower =
      (walk next size rows pages (some (next last.1))).map
        ((rows.drop seen).take size ++ ·) := by
  have length : ((rows.drop seen).take size).length = size := by
    rw [length_take, length_drop]
    omega
  have ends' : ((rows.drop seen).take size).getLast? = some last := by
    rw [take_add, List.getLast?_append_of_ne_nil] at ends
    · exact ends
    · apply ne_nil_of_length_pos
      omega
  rw [walk, here]
  simp only [length, lt_irrefl, if_false, ends']

/-- At a page boundary, a reader goes on to see the rest of the rows just if
every bound it computes cuts where the page ends. -/
theorem Sorted.walk_from_iff (sorted : Sorted rows) (positive : 0 < size)
    {lower : Option κ} (here : fromBound rows lower = rows.drop seen) :
    (∃ pages, walk next size rows pages lower = some (rows.drop seen)) ↔
      PagesCut next size rows seen := by
  constructor
  · rintro ⟨pages, walked⟩
    induction pages generalizing lower seen with
    | zero => cases walked
    | succ pages ih =>
      rcases Nat.lt_or_ge rows.length (seen + size) with short | full
      · intro page last within
        have one_page : size ≤ (page + 1) * size :=
          Nat.le_mul_of_pos_left size (Nat.succ_pos page)
        omega
      · rw [PagesCut.step]
        have tail : ∀ last, (rows.take (seen + size)).getLast? = some last →
            fromBound rows (some (next last.1)) = rows.drop (seen + size) ∧
            walk next size rows pages (some (next last.1)) =
              some (rows.drop (seen + size)) := by
          intro last ends
          rw [walk_full here positive full ends] at walked
          obtain ⟨rest, walked', split⟩ := Option.map_eq_some_iff.mp walked
          have rest_eq : rest = rows.drop (seen + size) := by
            rw [← drop_drop]
            apply append_cancel_left
            rw [split, take_append_drop]
          rw [rest_eq] at walked'
          obtain ⟨starts, empty⟩ := walk_page walked'
          exact ⟨sorted.fromBound_eq_drop positive starts empty, walked'⟩
        have nonempty : rows.take (seen + size) ≠ [] := by
          apply ne_nil_of_length_pos
          rw [length_take]
          omega
        obtain ⟨cut, walked'⟩ := tail _ (List.getLast?_eq_some_getLast nonempty)
        refine ⟨fun last _ ends => ?_, ih cut walked'⟩
        exact (sorted.fromBound_eq_drop_iff ends).mp (tail last ends).1
  · intro cut
    generalize left : rows.length - seen = count
    induction count using Nat.strongRecOn generalizing lower seen with
    | ind count ih =>
      rcases Nat.lt_or_ge rows.length (seen + size) with short | full
      · exact ⟨1, walk_short here short 0⟩
      · obtain ⟨first, later⟩ := PagesCut.step.mp cut
        have nonempty : rows.take (seen + size) ≠ [] := by
          apply ne_nil_of_length_pos
          rw [length_take]
          omega
        have ends := List.getLast?_eq_some_getLast nonempty
        generalize (rows.take (seen + size)).getLast nonempty = last at ends
        obtain ⟨pages, walked⟩ := ih (rows.length - (seen + size)) (by omega)
          ((sorted.fromBound_eq_drop_iff ends).mpr (first last full ends)) later rfl
        refine ⟨pages + 1, ?_⟩
        rw [walk_full here positive full ends, walked, Option.map_some,
          ← drop_drop, take_append_drop]

/-- A reader sees every row once just if every bound it computes cuts where the
page ends. -/
theorem Sorted.walk_iff (sorted : Sorted rows) (positive : 0 < size) :
    (∃ pages, walk next size rows pages none = some rows) ↔
      PagesCut next size rows 0 := by
  have here : fromBound rows none = rows.drop 0 := rfl
  exact sorted.walk_from_iff positive here

end Walk

end ApexStore.Paging
