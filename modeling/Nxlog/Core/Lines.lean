import Nxlog.Core.Res

/-!
# Lines of a stream that arrives in pieces

A stream of elements is made of lines, each ended by a separator. When it arrives
in pieces (`fills`), a line may begin in one fill and end in a later one.

* `splitLines sep s`: the complete lines of `s` and the rest behind the last
  separator.
* `splitLines_complete`: what ends with a separator is made of whole lines.
* `cutFills sep acc fills`: for each complete line the pieces it arrives in
  before its last fill, and its last piece; `acc` is the line under way.
* `join_cutFills`: put together, they are the lines of the whole stream.
-/
namespace Nxlog
open List

variable {α : Type} [DecidableEq α] (sep : α)

def splitLines : List α → List (List α) × List α
  | [] => ([], [])
  | c :: cs =>
    if c = sep then ([] :: (splitLines cs).1, (splitLines cs).2)
    else
      match splitLines cs with
      | ([], tail) => ([], c :: tail)
      | (l :: ls, tail) => ((c :: l) :: ls, tail)

/-- The line under way after a fill that ends with `tail`. -/
def addPiece (acc : List (List α)) (tail : List α) : List (List α) :=
  if tail = [] then acc else acc ++ [tail]

/-- The lines completed by a fill, each with its earlier pieces, and the line
under way behind it. -/
def cutFill (acc : List (List α)) (fill : List α) : List (List (List α) × List α) × List (List α) :=
  match splitLines sep fill with
  | ([], tail) => ([], addPiece acc tail)
  | (l :: ls, tail) => ((acc, l) :: ls.map ([], ·), addPiece [] tail)

def cutFills (acc : List (List α)) : List (List α) → List (List (List α) × List α)
  | [] => []
  | fill :: fills => (cutFill sep acc fill).1 ++ cutFills (cutFill sep acc fill).2 fills

def joinPieces (line : List (List α) × List α) : List α := line.1.flatten ++ line.2

variable {sep}

theorem splitLines_of_not_mem {s : List α} (h : sep ∉ s) : splitLines sep s = ([], s) := by
  induction s with
  | nil => rfl
  | cons c cs ih =>
    obtain ⟨hc, hcs⟩ := ne_and_not_mem_of_not_mem_cons h
    rw [splitLines, if_neg (Ne.symm hc), ih hcs]

/-- Elements in front that are no separators belong to the first line, or to the rest. -/
theorem splitLines_append : ∀ {a : List α} (s : List α), sep ∉ a → splitLines sep (a ++ s) =
    match splitLines sep s with
    | ([], tail) => ([], a ++ tail)
    | (l :: ls, tail) => ((a ++ l) :: ls, tail) := by
  intro a
  induction a with
  | nil =>
    intro s _
    rw [nil_append]
    match splitLines sep s with
    | ([], tail) => rfl
    | (l :: ls, tail) => rfl
  | cons c a ih =>
    intro s h
    obtain ⟨hc, ha⟩ := ne_and_not_mem_of_not_mem_cons h
    rw [cons_append, splitLines, if_neg (Ne.symm hc), ih s ha]
    match splitLines sep s with
    | ([], tail) => rfl
    | (l :: ls, tail) => rfl

theorem splitLines_line {w : List α} (r : List α) (hw : sep ∉ w) :
    splitLines sep (w ++ sep :: r) = (w :: (splitLines sep r).1, (splitLines sep r).2) := by
  rw [splitLines_append _ hw, splitLines, if_pos rfl]
  simp only [append_nil]

/-- Behind a separator the lines start over. -/
theorem splitLines_complete {a : List α} (b : List α) (h : (splitLines sep a).2 = []) :
    splitLines sep (a ++ b) = ((splitLines sep a).1 ++ (splitLines sep b).1, (splitLines sep b).2) := by
  induction hn : a.length using Nat.strongRecOn generalizing a with
  | _ n ih =>
    by_cases hmem : sep ∈ a
    · obtain ⟨w, r, rfl, hw⟩ := eq_append_cons_of_mem hmem
      rw [splitLines_line r hw] at h ⊢
      rw [append_assoc, cons_append, splitLines_line _ hw, ih r.length (by subst hn; simp; omega) h rfl]
      rfl
    · rw [splitLines_of_not_mem hmem] at h ⊢
      rw [show a = [] from h]
      rfl

variable (sep) in
theorem splitLines_tail : ∀ (s : List α), sep ∉ (splitLines sep s).2 ∧ (splitLines sep s).2.length ≤
    s.length := by
  intro s
  induction s with
  | nil => simp [splitLines]
  | cons c cs ih =>
    obtain ⟨hsep, hlen⟩ := ih
    by_cases hc : c = sep
    · rw [splitLines, if_pos hc]
      exact ⟨hsep, Nat.le_succ_of_le hlen⟩
    rw [splitLines, if_neg hc]
    match hs : splitLines sep cs with
    | ([], tail) =>
      rw [hs] at hsep hlen
      exact ⟨not_mem_cons_of_ne_of_not_mem (Ne.symm hc) hsep, by simpa using hlen⟩
    | (l :: ls, tail) =>
      rw [hs] at hsep hlen
      exact ⟨hsep, Nat.le_succ_of_le hlen⟩

omit [DecidableEq α] in
theorem flatten_addPiece (acc : List (List α)) (tail : List α) : (addPiece acc tail).flatten =
    acc.flatten ++ tail := by
  unfold addPiece
  split
  · rename_i h; rw [h, append_nil]
  · simp

theorem cutFill_of_not_mem {acc : List (List α)} {fill : List α} (h : sep ∉ fill) :
    cutFill sep acc fill = ([], addPiece acc fill) := by
  rw [cutFill, splitLines_of_not_mem h]

theorem cutFill_line {acc : List (List α)} {w : List α} (r : List α) (hw : sep ∉ w) :
    cutFill sep acc (w ++ sep :: r) = ((acc, w) :: (cutFill sep [] r).1, (cutFill sep [] r).2) := by
  rw [cutFill, cutFill, splitLines_line r hw]
  match splitLines sep r with
  | ([], tail) => rfl
  | (l :: ls, tail) => rfl

theorem splitLines_fills (acc : List (List α)) (fill rest : List α) (h : sep ∉ acc.flatten) :
    (splitLines sep (acc.flatten ++ (fill ++ rest))).1 =
      (cutFill sep acc fill).1.map joinPieces ++
      (splitLines sep ((cutFill sep acc fill).2.flatten ++ rest)).1 := by
  induction hn : fill.length using Nat.strongRecOn generalizing fill acc with
  | _ n ih =>
    by_cases hmem : sep ∈ fill
    · obtain ⟨w, r, rfl, hw⟩ := eq_append_cons_of_mem hmem
      have hline : sep ∉ acc.flatten ++ w := by
        rw [mem_append]; exact fun hc => hc.elim h hw
      have hrest := ih r.length (by subst hn; simp; omega) [] r (by simp) rfl
      rw [flatten_nil, nil_append] at hrest
      rw [cutFill_line r hw, append_assoc, cons_append, ← append_assoc acc.flatten,
        splitLines_line _ hline, hrest]
      rfl
    · rw [cutFill_of_not_mem hmem, flatten_addPiece, append_assoc]
      rfl

theorem cutFill_not_mem {acc : List (List α)} (fill : List α) (h : sep ∉ acc.flatten) :
    sep ∉ (cutFill sep acc fill).2.flatten := by
  obtain ⟨ht, -⟩ := splitLines_tail sep fill
  unfold cutFill
  match hs : splitLines sep fill with
  | ([], tail) =>
    rw [hs] at ht
    rw [flatten_addPiece, mem_append]
    exact fun hc => hc.elim h ht
  | (l :: ls, tail) =>
    rw [hs] at ht
    rw [flatten_addPiece, flatten_nil, nil_append]
    exact ht

variable (sep)

/-- The lines of the stream, put together from their pieces. -/
theorem join_cutFills (fills : List (List α)) (acc : List (List α)) (h : sep ∉ acc.flatten) :
    (cutFills sep acc fills).map joinPieces = (splitLines sep (acc.flatten ++ fills.flatten)).1 := by
  induction fills generalizing acc with
  | nil =>
    rw [flatten_nil, append_nil, splitLines_of_not_mem h]
    rfl
  | cons fill fills ih =>
    rw [cutFills, map_append, ih _ (cutFill_not_mem fill h), flatten_cons, splitLines_fills _ _ _ h]

/-- What is true of the pieces of the line under way and of any part of a fill
is true of the pieces of every line. -/
theorem cutFills_pieces {n : Nat} : ∀ (fills : List (List α)) (acc : List (List α)),
    (∀ fill ∈ fills, fill.length ≤ n) → (∀ p ∈ acc, p.length ≤ n) →
    ∀ line ∈ cutFills sep acc fills, ∀ p ∈ line.1, p.length ≤ n := by
  intro fills
  induction fills with
  | nil => intro acc _ _ line hline; simp [cutFills] at hline
  | cons fill fills ih =>
    intro acc hf ha line hline
    have htail : ∀ t, t = (splitLines sep fill).2 → t.length ≤ n := by
      rintro t rfl
      exact Nat.le_trans (splitLines_tail sep fill).2 (hf fill mem_cons_self)
    have hadd : ∀ (acc : List (List α)) (t : List α), (∀ p ∈ acc, p.length ≤ n) → t.length ≤ n →
        ∀ p ∈ addPiece acc t, p.length ≤ n := by
      intro acc t hacc ht p hp
      unfold addPiece at hp
      split at hp
      · exact hacc p hp
      · rcases mem_append.mp hp with hp | hp
        · exact hacc p hp
        · rw [mem_singleton.mp hp]; exact ht
    rw [cutFills] at hline
    match hs : splitLines sep fill with
    | ([], tail) =>
      simp only [cutFill, hs] at hline
      rw [hs] at htail
      exact ih _ (forall_mem_cons.mp hf).2 (hadd acc tail ha (htail tail rfl)) line
        (by simpa using hline)
    | (l :: ls, tail) =>
      simp only [cutFill, hs] at hline
      rw [hs] at htail
      rcases mem_append.mp hline with hline | hline
      · rcases mem_cons.mp hline with rfl | hline
        · exact ha
        · obtain ⟨x, -, rfl⟩ := mem_map.mp hline
          simp
      · exact ih _ (forall_mem_cons.mp hf).2
          (hadd [] tail (by simp) (htail tail rfl)) line hline

end Nxlog
