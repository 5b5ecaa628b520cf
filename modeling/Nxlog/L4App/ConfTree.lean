import Nxlog.L4App.Conf

/-!
# The shape of the configuration tree

A text without `include`, `define` and raw blocks is a sequence of `Item`s: directives,
opening tags and closing tags. `outline` gives every directive its innermost enclosing
block, and `Built` says that the nodes are linked that way.

The cursor of the parser is right as long as every block has a directive in it. A closing
tag takes the parent of the cursor to be the block that ends. Right behind the opening tag
the cursor is the block itself, so its parent is taken, and the next directive is linked
as a sibling of that parent (of the root, where nothing looks for it).

* `parse_items`: on such a text, the parser does what its items do.
* `Built.append_child`, `Built.append_sibling`: a node is linked where the outline has it.
* `Placed`, `item_placed`: where the cursor is, as long as it is right, and after an empty block.
* `run_built_iff`: the whole text.
* `conf_tree_iff`: the tree is right exactly if nothing follows an empty block.
-/
namespace Nxlog.L4.Conf
open L1 L3 Res List

/-! ## Items -/

inductive Item where
  | leaf (label : Label)
  | opens (label : Label)
  | closes (name : Bytes)
  deriving DecidableEq, Repr

/-- What a line is; `none` for `include`, `define`, the tag of a raw block and a closing tag without
bracket, and `some none` for a line that says nothing. -/
def lineItem (filename : Bytes) (line : Line) : Option (Option Item) :=
  let l := line.text
  let (cmd_name, args) := getword l
  if l = [] ∨ cmd_name = [] then some none
  else if needBodyParsed false cmd_name then none
  else if l.head? = some 35 then some none
  else if caseEq cmd_name (ascii "include") then none
  else
    let argsstart := l.length - args.length
    let (cmd_name, args) := stripTag cmd_name args
    let label : Label := ⟨cmd_name, args, argsstart + line.trimmedspace, filename, line.line_num⟩
    if caseEq cmd_name (ascii "define") then none
    else if cmd_name.head? = some 60 then
      if (cmd_name.drop 1).head? = some 47 then
        if cmd_name.getLast? = some 62 then some (some (.closes (cmd_name.dropLast.drop 2))) else none
      else some (some (.opens (openLabel label)))
    else some (some (.leaf label))

def textLines : Nat → Nat → Bytes → List Line
  | 0, _, _ => []
  | fuel + 1, line_num, file =>
    match getline false line_num file with
    | (_, none) => []
    | (_, some line) => line :: textLines fuel line.line_num line.rest

def itemsOf (filename : Bytes) : List Line → Option (List Item)
  | [] => some []
  | line :: lines =>
    match lineItem filename line with
    | none => none
    | some none => itemsOf filename lines
    | some (some item) => (itemsOf filename lines).map (item :: ·)

def textItems (filename text : Bytes) : Option (List Item) :=
  itemsOf filename (textLines (text.length + 1) 0 text)

def stepItem (ctx : Ctx) : Item → Res Ctx
  | .leaf label => addNode ctx label
  | .opens label => openTag ctx label
  | .closes name =>
    match ctx.levels with
    | [] => Res.fault
    | level :: levels => do
      let node ← nodeAt ctx.nodes level
      if caseEq name node.label.directive then leaveBlock ctx false levels else Res.fault

/-! ### The text and its items -/

structure Plain (ctx : Ctx) : Prop where
  defines : ctx.defines = []
  dont_parse : ctx.dont_parse = false

variable {items : List Item} {es : List (Label × Nat)} {stack : List Nat} {item : Item} {ctx ctx' : Ctx}
  {nodes : List Node} {filename : Bytes} {k j p : Nat}

theorem closes_cases {ctx ctx' : Ctx} {name : Bytes} (h : stepItem ctx (.closes name) = .ok ctx') :
    ∃ current levels, ctx' = { ctx with current := current, next_is_child := false, levels := levels } := by
  rw [stepItem] at h
  split at h
  · cases h
  next levels _ =>
  obtain ⟨node, -, h⟩ := bind_eq_ok.mp h
  split at h
  · obtain ⟨current, rfl⟩ := leaveBlock_cases h
    exact ⟨current, levels, rfl⟩
  · cases h

theorem stepItem_plain {ctx ctx' : Ctx} (h : stepItem ctx item = .ok ctx') (hp : Plain ctx) : Plain ctx' := by
  cases item with
  | leaf label =>
    obtain ⟨_, _, _, -, -, -, rfl⟩ := addNode_cases h
    exact ⟨hp.defines, hp.dont_parse⟩
  | opens label =>
    obtain ⟨ctx1, levels, h1, rfl⟩ := openTag_cases h
    obtain ⟨_, _, _, -, -, -, rfl⟩ := addNode_cases h1
    exact ⟨hp.defines, hp.dont_parse⟩
  | closes name =>
    obtain ⟨current, levels, rfl⟩ := closes_cases h
    exact ⟨hp.defines, hp.dont_parse⟩

theorem Plain.eta (h : Plain ctx) : { ctx with dont_parse := false } = ctx := by
  rw [← h.dont_parse]

theorem closeTag_item {cmd_name filename : Bytes} {line_num : Nat}
    (hb : cmd_name.getLast? = some 62) (ctx' : Ctx) :
    closeTag ctx false cmd_name filename line_num = .ok ctx' ↔
      stepItem ctx (.closes (cmd_name.dropLast.drop 2)) = .ok ctx' := by
  rw [closeTag, stepItem]
  cases ctx.levels with
  | nil => simp [Res.throw, Res.fault]
  | cons level levels =>
    simp only [hb, ne_eq, not_true_eq_false, if_false]
    cases nodeAt ctx.nodes level with
    | error e => simp
    | ok node =>
      simp only [ok_bind]
      split
      · rfl
      · simp [Res.throw, Res.fault]

/-- A line does what its item does, if it has one. -/
theorem parseLine_item {inc : Bytes → Ctx → Res Ctx} {line : Line} {item : Option Item}
    (hp : Plain ctx) (h : lineItem filename line = some item) (ctx' : Ctx) :
    parseLine inc filename line ctx = .ok ctx' ↔ item.elim (.ok ctx) (stepItem ctx) = .ok ctx' := by
  rcases hw : getword line.text with ⟨cmd_name, args⟩
  rcases hs : stripTag cmd_name args with ⟨tag, targs⟩
  simp only [lineItem, hw, hs] at h
  simp only [parseLine, hw, hs, hp.dont_parse]
  split at h
  · next hl =>
    cases h
    rw [if_pos hl]
    rfl
  next hl =>
  rw [if_neg hl]
  split at h
  · cases h
  next hb =>
  rw [Bool.not_eq_true] at hb
  simp only [hb, hp.eta, Bool.false_eq_true, false_and, if_false, newdir]
  split at h
  · next hc =>
    cases h
    rw [if_pos hc]
    rfl
  next hc =>
  rw [if_neg hc]
  split at h
  · cases h
  next hi =>
  rw [if_neg hi]
  split at h
  · cases h
  next hd =>
  rw [if_neg hd]
  split at h
  · next ht =>
    rw [if_pos ht]
    split at h
    · next he =>
      rw [if_pos he]
      split at h
      · next hg =>
        cases h
        exact closeTag_item hg ctx'
      · cases h
    · next he =>
      rw [if_neg he]
      cases h
      exact Iff.rfl
  · next ht =>
    rw [if_neg ht]
    cases h
    exact Iff.rfl

variable {env : ConfEnv} {rounds fuel : Nat}

theorem parseLines_items {inc : Nat → Bytes → Ctx → Res Ctx}
    {line_num : Nat} {file : Bytes} (hf : file.length < fuel) (hp : Plain ctx)
    (h : itemsOf filename (textLines fuel line_num file) = some items) (ctx' : Ctx) :
    (∃ n, parseLines env rounds inc filename fuel line_num ctx file = .ok (ctx', n)) ↔
      run stepItem ctx items = .ok ctx' := by
  induction fuel generalizing line_num file ctx items with
  | zero => omega
  | succ fuel ih =>
    rw [textLines] at h
    rw [parseLines, hp.dont_parse]
    rcases hg : getline false line_num file with ⟨k, _ | line⟩
    · rw [hg] at h
      cases h
      simp
    · rw [hg] at h
      dsimp only at h ⊢
      rw [itemsOf] at h
      have hlen := (getline_bounds hg).1
      have hsub : substDefines env rounds line.text ctx.defines = .ok line.text := by rw [hp.defines]; rfl
      rw [hsub, ok_bind]
      cases hi : lineItem filename line with
      | none => rw [hi] at h; cases h
      | some item =>
        rw [hi] at h
        cases item with
        | none =>
          rw [(parseLine_item hp hi ctx).mpr rfl, ok_bind]
          exact ih (by omega) hp h
        | some item =>
          obtain ⟨items', h', rfl⟩ := Option.map_eq_some_iff.mp h
          have hline : ∀ ctx', parseLine (inc line.line_num) filename line ctx = .ok ctx' ↔
              stepItem ctx item = .ok ctx' := parseLine_item hp hi
          have hrest : ∀ ctx1, stepItem ctx item = .ok ctx1 → _ := fun ctx1 hs =>
            ih (by omega) (stepItem_plain hs hp) h'
          simp only [run_cons, bind_eq_ok, hline]
          constructor
          · rintro ⟨n, ctx1, hs, hparse⟩
            exact ⟨ctx1, hs, (hrest ctx1 hs).mp ⟨n, hparse⟩⟩
          · rintro ⟨ctx1, hs, hrun⟩
            obtain ⟨n, hparse⟩ := (hrest ctx1 hs).mpr hrun
            exact ⟨n, ctx1, hs, hparse⟩

/-- On a text of items, the parser does what they do. -/
theorem parse_items {depth : Nat} {filename text : Bytes}
    (hp : Plain ctx) (h : textItems filename text = some items) (ctx' : Ctx) :
    cfgParse env rounds (depth + 1) filename ctx text = .ok ctx' ↔
      run stepItem ctx items = .ok ctx' ∧ ctx'.levels = [] := by
  have hlines : (∃ n, parseLines env rounds (parseInclude env (cfgParse env rounds depth) filename) filename
      (text.length + 1) 0 ctx text = .ok (ctx', n)) ↔ run stepItem ctx items = .ok ctx' :=
    parseLines_items (Nat.lt_succ_self text.length) hp h ctx'
  rw [cfgParse, bind_eq_ok, ← hlines]
  constructor
  · rintro ⟨⟨ctx1, n⟩, h1, h2⟩
    rw [atEnd] at h2
    split at h2
    · next hl =>
      cases h2
      exact ⟨⟨n, h1⟩, hl⟩
    · obtain ⟨node, -, h2⟩ := bind_eq_ok.mp h2
      cases h2
  · rintro ⟨⟨n, h1⟩, hl⟩
    refine ⟨(ctx', n), h1, ?_⟩
    simp only [atEnd, hl]

/-! ## Where the directives belong

The directives are numbered from 1 in the order of the text; 0 is the root. -/

/-- The directives so far, each with the block it is in, and the blocks that are open. -/
structure Outline where
  entries : List (Label × Nat)
  stack : List Nat

def Outline.top (o : Outline) : Nat := o.stack.headD 0

def Outline.add (o : Outline) : Item → Outline
  | .leaf label => ⟨o.entries ++ [(label, o.top)], o.stack⟩
  | .opens label => ⟨o.entries ++ [(label, o.top)], (o.entries.length + 1) :: o.stack⟩
  | .closes _ => ⟨o.entries, o.stack.tail⟩

def outline (items : List Item) : List (Label × Nat) := (items.foldl Outline.add ⟨[], []⟩).entries

/-- The tags are properly nested, in blocks with the names `names`, and not too deep. -/
def Nested : List Bytes → List Item → Prop
  | names, [] => names = []
  | names, .leaf _ :: items => Nested names items
  | names, .opens label :: items => names.length < maxDepth ∧ Nested (label.directive :: names) items
  | [], .closes _ :: _ => False
  | name :: names, .closes close :: items => caseEq close name = true ∧ Nested names items

variable {ext : List (Label × Nat)}

section Entries

variable {es : List (Label × Nat)} {label : Label} {p k j : Nat}

def blockAt (es : List (Label × Nat)) : Nat → Option Nat
  | 0 => none
  | k + 1 => es[k]?.map Prod.snd

def labelAt (es : List (Label × Nat)) : Nat → Label
  | 0 => ⟨ascii "Root", [], 0, [], 0⟩
  | k + 1 => (es[k]?.map Prod.fst).getD ⟨[], [], 0, [], 0⟩

/-- The first directive of block `p` behind directive `k`. -/
def childFrom (es : List (Label × Nat)) (p k : Nat) : Option Nat :=
  ((es.drop k).findIdx? (decide <| ·.2 = p)).map (· + k + 1)

def nextSibling (es : List (Label × Nat)) (k : Nat) : Option Nat := (blockAt es k).bind (childFrom es · k)

def nodeOf (es : List (Label × Nat)) (k : Nat) : Node :=
  ⟨labelAt es k, blockAt es k, childFrom es k 0, nextSibling es k⟩

structure Built (nodes : List Node) (es : List (Label × Nat)) : Prop where
  size : nodes.length = es.length + 1
  node : ∀ k, k ≤ es.length → nodes[k]? = some (nodeOf es k)

def Ordered (es : List (Label × Nat)) : Prop := ∀ k p, blockAt es k = some p → p < k

theorem blockAt_le (h : blockAt es k = some p) : k ≤ es.length := by
  cases k with
  | zero => exact Nat.zero_le _
  | succ k =>
    obtain ⟨e, he, -⟩ := Option.map_eq_some_iff.mp h
    exact (List.getElem?_eq_some_iff.mp he).1

theorem blockAt_pos (h : blockAt es k = some p) : 0 < k := by
  cases k with
  | zero => cases h
  | succ k => exact Nat.succ_pos k

@[simp] theorem blockAt_append (hk : k ≤ es.length) : blockAt (es ++ ext) k = blockAt es k := by
  cases k with
  | zero => rfl
  | succ k => simp only [blockAt, getElem?_append_left hk]

@[simp] theorem blockAt_append_last : blockAt (es ++ (label, p) :: ext) (es.length + 1) = some p := by
  simp [blockAt]

@[simp] theorem labelAt_append (hk : k ≤ es.length) : labelAt (es ++ [(label, p)]) k = labelAt es k := by
  cases k with
  | zero => rfl
  | succ k => simp only [labelAt, getElem?_append_left hk]

@[simp] theorem labelAt_append_last : labelAt (es ++ [(label, p)]) (es.length + 1) = label := by simp [labelAt]

theorem childFrom_some (h : childFrom es p k = some j) : k < j ∧ blockAt es j = some p := by
  obtain ⟨i, hi, rfl⟩ := Option.map_eq_some_iff.mp h
  obtain ⟨hlt, hp, -⟩ := findIdx?_eq_some_iff_getElem.mp hi
  refine ⟨by omega, ?_⟩
  simp only [getElem_drop, decide_eq_true_eq] at hp
  simp only [length_drop] at hlt
  rw [blockAt, Nat.add_comm i k, getElem?_eq_getElem (by omega), Option.map_some, hp]

theorem childFrom_none : childFrom es p k = none ↔ ∀ i, k < i → blockAt es i ≠ some p := by
  rw [childFrom, Option.map_eq_none_iff, findIdx?_eq_none_iff]
  constructor
  · intro h i hi hb
    obtain ⟨i, rfl⟩ : ∃ j, i = j + 1 := ⟨i - 1, by omega⟩
    obtain ⟨e, he, hp⟩ := Option.map_eq_some_iff.mp hb
    have hmem : e ∈ es.drop k := by
      refine mem_of_getElem? (i := i - k) ?_
      rw [getElem?_drop, Nat.add_sub_cancel' (by omega), he]
    simpa [hp] using h e hmem
  · intro h e he
    obtain ⟨i, hi⟩ := mem_iff_getElem?.mp he
    rw [getElem?_drop] at hi
    have := h (k + i + 1) (by omega)
    rw [blockAt, hi] at this
    simpa using this

theorem childFrom_append (hk : k ≤ es.length) : childFrom (es ++ [(label, j)]) p k =
    (childFrom es p k).or (if j = p then some (es.length + 1) else none) := by
  rw [childFrom, childFrom, drop_append_of_le_length hk, findIdx?_append]
  cases (es.drop k).findIdx? (decide <| ·.2 = p) with
  | some i => simp
  | none =>
    by_cases hj : j = p
    · simp [hj]; omega
    · simp [hj]

theorem childFrom_isSome (hb : blockAt es j = some p) (hk : k < j) : ∃ i, childFrom es p k = some i := by
  cases h : childFrom es p k with
  | some i => exact ⟨i, rfl⟩
  | none => exact absurd hb (childFrom_none.mp h j hk)

theorem nextSibling_append (hk : k ≤ es.length) : nextSibling (es ++ [(label, p)]) k =
    (nextSibling es k).or (if blockAt es k = some p then some (es.length + 1) else none) := by
  rw [nextSibling, nextSibling, blockAt_append hk]
  cases blockAt es k with
  | none => simp
  | some q => simp [childFrom_append hk, eq_comm]

theorem nodeOf_append (hk : k ≤ es.length) : nodeOf (es ++ [(label, p)]) k =
    { nodeOf es k with
      first_child := (childFrom es k 0).or (if p = k then some (es.length + 1) else none)
      next := (nextSibling es k).or (if blockAt es k = some p then some (es.length + 1) else none) } := by
  simp only [nodeOf, labelAt_append hk, blockAt_append hk, childFrom_append (Nat.zero_le _),
    nextSibling_append hk]

theorem Ordered.append (h : Ordered es) (hp : p ≤ es.length) : Ordered (es ++ [(label, p)]) := by
  intro k q hq
  have hk := blockAt_le hq
  simp only [length_append, length_singleton] at hk
  obtain hk | rfl := Nat.le_or_eq_of_le_succ hk
  · rw [blockAt_append hk] at hq
    exact h k q hq
  · rw [blockAt_append_last] at hq
    cases hq
    omega

/-- The new directive has no directives in it and none behind it. -/
theorem nodeOf_append_last (h : Ordered es) (hp : p ≤ es.length) :
    nodeOf (es ++ [(label, p)]) (es.length + 1) = ⟨label, some p, none, none⟩ := by
  have hchild : childFrom (es ++ [(label, p)]) (es.length + 1) 0 = none := by
    rw [childFrom_none]
    intro i _ hi
    have hle := blockAt_le hi
    have := h.append hp i _ hi
    simp only [length_append, length_singleton] at hle
    omega
  have hnext : childFrom (es ++ [(label, p)]) p (es.length + 1) = none := by
    rw [childFrom_none]
    intro i hlt hi
    have hle := blockAt_le hi
    simp only [length_append, length_singleton] at hle
    omega
  simp [nodeOf, nextSibling, hchild, hnext]

def IsLast (es : List (Label × Nat)) (p k : Nat) : Prop := blockAt es k = some p ∧ childFrom es p k = none

theorem IsLast.nextSibling_eq (h : IsLast es p k) : nextSibling es k = none := by
    rw [nextSibling, h.1, Option.bind_some, h.2]

theorem IsLast.append {q : Nat} (h : IsLast es q k) (hq : p ≠ q) : IsLast (es ++ [(label, p)]) q k := by
  have hk := blockAt_le h.1
  refine ⟨(blockAt_append hk).trans h.1, ?_⟩
  rw [childFrom_append hk, h.2, if_neg hq]
  rfl

theorem isLast_append_last : IsLast (es ++ [(label, p)]) p (es.length + 1) := by
  refine ⟨blockAt_append_last, childFrom_none.mpr ?_⟩
  intro i hlt hi
  have hle := blockAt_le hi
  simp only [length_append, length_singleton] at hle
  omega

/-! ### A new node -/

variable {nodes : List Node} {node : Node}

theorem Built.append (h : Built nodes es) (ho : Ordered es) (hp : p ≤ es.length)
    (hnode : nodeOf (es ++ [(label, p)]) j = node)
    (hold : ∀ k, k ≤ es.length → k ≠ j → nodeOf (es ++ [(label, p)]) k = nodeOf es k) :
    Built (nodes.set j node ++ [⟨label, some p, none, none⟩]) (es ++ [(label, p)]) := by
  refine ⟨by simp [h.size], fun k hk => ?_⟩
  simp only [length_append, length_singleton] at hk
  obtain hk | rfl := Nat.le_or_eq_of_le_succ hk
  · have hlt : k < nodes.length := by rw [h.size]; omega
    rw [getElem?_append_left (by simpa using hlt), getElem?_set]
    split
    · next hjk =>
      subst hjk
      rw [if_pos hlt, hnode]
    · next hjk => rw [h.node k hk, hold k hk (Ne.symm hjk)]
  · rw [nodeOf_append_last ho hp, getElem?_append_right (by simp [h.size])]
    simp [h.size]

theorem Built.append_child (h : Built nodes es) (ho : Ordered es) (hp : p ≤ es.length)
    (hc : childFrom es p 0 = none) :
    Built (nodes.set p { nodeOf es p with first_child := some (es.length + 1) } ++
      [⟨label, some p, none, none⟩])
      (es ++ [(label, p)]) := by
  have hself : blockAt es p ≠ some p := fun hb => Nat.lt_irrefl p (ho p p hb)
  refine h.append ho hp ?_ ?_
  · rw [nodeOf_append hp, hc, if_neg hself]
    simp [nodeOf]
  · intro k hk hkp
    have hb : blockAt es k ≠ some p := fun hb => childFrom_none.mp hc k (blockAt_pos hb) hb
    rw [nodeOf_append hk, if_neg (Ne.symm hkp), if_neg hb]
    simp [nodeOf]

theorem Built.append_sibling (h : Built nodes es) (ho : Ordered es) (hl : IsLast es p j) :
    Built (nodes.set j { nodeOf es j with next := some (es.length + 1) } ++ [⟨label, some p, none,
      none⟩]) (es ++ [(label, p)]) := by
  have hj := blockAt_le hl.1
  have hpj := ho j p hl.1
  refine h.append ho (by omega) ?_ ?_
  · rw [nodeOf_append hj, hl.nextSibling_eq, if_neg (by omega), if_pos hl.1]
    simp [nodeOf]
  intro k hk hkj
  have hchild : (childFrom es k 0).or (if p = k then some (es.length + 1) else none) = childFrom es k 0 := by
    split
    · next hpk =>
      obtain ⟨i, hi⟩ := childFrom_isSome (hpk ▸ hl.1) (blockAt_pos hl.1)
      rw [hi, Option.some_or]
    · exact Option.or_none
  have hnext : (nextSibling es k).or
      (if blockAt es k = some p then some (es.length + 1) else none) = nextSibling es k := by
    split
    · next hb =>
      -- behind directive `k` of the same block comes `j`
      have hkj : k < j := by
        rcases Nat.lt_or_ge k j with hlt | hge
        · exact hlt
        · exact absurd hb (childFrom_none.mp hl.2 k (by omega))
      obtain ⟨i, hi⟩ := childFrom_isSome hl.1 hkj
      rw [nextSibling, hb, Option.bind_some, hi, Option.some_or]
    · exact Option.or_none
  rw [nodeOf_append hk, hchild, hnext]
  simp [nodeOf]

theorem Built.nodeAt (h : Built nodes es) (hk : k ≤ es.length) : nodeAt nodes k = .ok (nodeOf es k) := by
  rw [Conf.nodeAt, h.node k hk]

end Entries

/-! ## The cursor -/

/-- Where the cursor is: at the last directive of the open block, at the tag that opened it, or at
the block although it is not empty. -/
inductive Place where
  | inside
  | fresh
  | lost
  deriving DecidableEq

/-- Where an item takes the cursor; from a lost cursor, no directive is linked right. -/
def Place.next : Place → Item → Option Place
  | .lost, .leaf _ => none
  | .lost, .opens _ => none
  | _, .leaf _ => some .inside
  | _, .opens _ => some .fresh
  | .inside, .closes _ => some .inside
  | _, .closes _ => some .lost

def Cursor (es : List (Label × Nat)) (top : Nat) (ctx : Ctx) : Place → Prop
  | .inside => ctx.next_is_child = false ∧ IsLast es top ctx.current
  | .fresh => ctx.next_is_child = true ∧ ctx.current = top ∧ childFrom es top 0 = none
  | .lost => ctx.next_is_child = false ∧ ctx.current = top

/-- The open blocks: each one is the last directive of the one around it. -/
def Opened (es : List (Label × Nat)) : List Nat → Prop
  | [] => True
  | s :: stack => IsLast es (stack.headD 0) s ∧ Opened es stack

def Outline.names (o : Outline) : List Bytes := o.stack.map fun s => (labelAt o.entries s).directive

structure Placed (place : Place) (o : Outline) (ctx : Ctx) : Prop where
  ordered : Ordered o.entries
  built : Built ctx.nodes o.entries
  levels : ctx.levels = o.stack
  opened : Opened o.entries o.stack
  cursor : Cursor o.entries o.top ctx place

theorem Opened.top_le (h : Opened es stack) : stack.headD 0 ≤ es.length := by
  cases stack with
  | nil => exact Nat.zero_le _
  | cons s stack => exact blockAt_le h.1.1

theorem Opened.append {label : Label} (ho : Ordered es)
    (h : Opened es stack) (hp : stack.headD 0 ≤ p) : Opened (es ++ [(label, p)]) stack := by
  induction stack with
  | nil => trivial
  | cons s stack ih =>
    have hlt := ho _ _ h.1.1
    have hs : s ≤ p := hp
    exact ⟨h.1.append (by omega), ih h.2 (by omega)⟩

theorem Opened.labels {label : Label} (h : Opened es stack) :
    stack.map (fun s => (labelAt (es ++ [(label, p)]) s).directive) = stack.map fun s =>
    (labelAt es s).directive := by
  induction stack with
  | nil => rfl
  | cons s stack ih => rw [map_cons, map_cons, labelAt_append (blockAt_le h.1.1), ih h.2]

/-- The root and the open blocks have nothing behind them. -/
theorem Opened.top_next (h : Opened es stack) : nextSibling es (stack.headD 0) = none := by
  cases stack with
  | nil => rfl
  | cons s stack => exact h.1.nextSibling_eq

section Step

variable {place : Place} {o : Outline} {ctx : Ctx} {label : Label}

theorem Placed.top_le (h : Placed place o ctx) : o.top ≤ o.entries.length := h.opened.top_le

theorem addNode_placed (label : Label) (h : Placed place o ctx) (hplace : place ≠ .lost) :
    ∃ nodes, addNode ctx label =
        .ok { ctx with nodes := nodes, current := o.entries.length + 1, next_is_child := false } ∧
      Built nodes (o.entries ++ [(label, o.top)]) := by
  have hsize := h.built.size
  cases place with
  | lost => exact absurd rfl hplace
  | fresh =>
    obtain ⟨hchild, hcur, hfirst⟩ := h.cursor
    have hnone : (nodeOf o.entries o.top).first_child = none := hfirst
    refine ⟨_, ?_, h.built.append_child h.ordered h.top_le hfirst⟩
    rw [addNode, hcur, h.built.nodeAt h.top_le, ok_bind, if_pos hchild, if_pos hnone, hsize]
  | inside =>
    obtain ⟨hchild, hlast⟩ := h.cursor
    have hparent : (nodeOf o.entries ctx.current).parent = some o.top := hlast.1
    have hnone : (nodeOf o.entries ctx.current).next = none := hlast.nextSibling_eq
    refine ⟨_, ?_, h.built.append_sibling h.ordered hlast⟩
    rw [addNode, h.built.nodeAt (blockAt_le hlast.1), ok_bind, hchild, if_neg Bool.false_ne_true,
      if_pos hnone, hsize]
    simp only [hparent]

theorem leaf_placed (label : Label) (h : Placed place o ctx) (hplace : place ≠ .lost) :
    ∃ ctx', stepItem ctx (.leaf label) = .ok ctx' ∧ Placed .inside (o.add (.leaf label)) ctx' := by
  obtain ⟨nodes, hadd, hbuilt⟩ := addNode_placed label h hplace
  exact ⟨_, hadd, h.ordered.append h.top_le, hbuilt, h.levels,
    h.opened.append h.ordered (Nat.le_refl _), rfl, isLast_append_last⟩

theorem opens_placed (label : Label) (h : Placed place o ctx) (hplace : place ≠ .lost)
    (hdepth : o.stack.length < maxDepth) :
    ∃ ctx', stepItem ctx (.opens label) = .ok ctx' ∧ Placed .fresh (o.add (.opens label)) ctx' := by
  obtain ⟨nodes, hadd, hbuilt⟩ := addNode_placed label h hplace
  have hempty : childFrom (o.entries ++ [(label, o.top)]) (o.entries.length + 1) 0 = none :=
    congrArg Node.first_child (nodeOf_append_last h.ordered h.top_le)
  have hopen : stepItem ctx (.opens label) =
      .ok { ctx with
        nodes := nodes
        current := o.entries.length + 1
        next_is_child := true
        levels := (o.entries.length + 1) :: o.stack } := by
    rw [stepItem, openTag, hadd, ok_bind, if_neg (by simpa [h.levels] using hdepth), h.built.size, h.levels]
  exact ⟨_, hopen, h.ordered.append h.top_le, hbuilt, rfl,
    ⟨isLast_append_last, h.opened.append h.ordered (Nat.le_refl _)⟩, rfl, rfl, hempty⟩

theorem lastSibling_of_none {k : Nat} (h : Built nodes es)
    (hk : k ≤ es.length) (hnext : nextSibling es k = none) : lastSibling nodes nodes.length k = .ok k := by
  have hnone : (nodeOf es k).next = none := hnext
  rw [h.size, lastSibling, h.nodeAt hk, ok_bind, hnone]

theorem leaveBlock_of_parent (h : Built ctx.nodes es)
    (hparent : blockAt es ctx.current = some p) (hp : p ≤ es.length) (hnext : nextSibling es p = none) :
    leaveBlock ctx false stack = .ok { ctx with current := p, next_is_child := false, levels := stack } := by
  have hnode : (nodeOf es ctx.current).parent = some p := hparent
  simp only [leaveBlock, blockOf, h.nodeAt (blockAt_le hparent), hnode, ok_bind, Bool.false_eq_true, if_false]
  rw [lastSibling_of_none h hp hnext, ok_bind]

/-- The parent of the cursor is taken for the block that ends: right behind its opening tag, that is
the block around it. -/
theorem closes_placed {s : Nat} {name : Bytes} (h : Placed place o ctx) (hs : o.stack = s :: stack)
    (hname : caseEq name (labelAt o.entries s).directive = true) :
    ∃ ctx', stepItem ctx (.closes name) = .ok ctx' ∧
      Placed (if place = .inside then .inside else .lost) ⟨o.entries, stack⟩ ctx' := by
  have htop : o.top = s := by rw [Outline.top, hs]; rfl
  have hopened := h.opened
  rw [hs] at hopened
  obtain ⟨hlast, hrest⟩ := hopened
  have hdirective : (nodeOf o.entries s).label.directive = (labelAt o.entries s).directive := rfl
  have hleave : stepItem ctx (.closes name) = leaveBlock ctx false stack := by
    simp only [stepItem, h.levels, hs, h.built.nodeAt (blockAt_le hlast.1), ok_bind]
    rw [hdirective, if_pos hname]
  rw [hleave]
  by_cases hplace : place = .inside
  · subst hplace
    obtain ⟨-, hcur⟩ := h.cursor
    rw [htop] at hcur
    refine ⟨_, leaveBlock_of_parent h.built hcur.1 (blockAt_le hlast.1) hlast.nextSibling_eq, ?_⟩
    exact ⟨h.ordered, h.built, rfl, hrest, rfl, hlast⟩
  · have hcur : ctx.current = s := by
      cases place with
      | inside => exact absurd rfl hplace
      | fresh => exact h.cursor.2.1.trans htop
      | lost => exact h.cursor.2.trans htop
    rw [if_neg hplace]
    refine ⟨_, leaveBlock_of_parent h.built (hcur ▸ hlast.1) hrest.top_le hrest.top_next, ?_⟩
    exact ⟨h.ordered, h.built, rfl, hrest, rfl, rfl⟩

theorem lost_adds (h : Placed .lost o ctx) (hadd : addNode ctx label = .ok ctx') :
    ∃ node, ctx'.nodes[o.top]? = some node ∧ node.next = some (o.entries.length + 1) := by
  obtain ⟨hchild, hcur⟩ := h.cursor
  have hnone : (nodeOf o.entries o.top).next = none := h.opened.top_next
  have hlt : o.top < ctx.nodes.length := by have := h.top_le; rw [h.built.size]; omega
  rw [addNode, hcur, h.built.nodeAt h.top_le, ok_bind, hchild, if_neg Bool.false_ne_true, if_pos hnone] at hadd
  refine ⟨{ nodeOf o.entries o.top with next := some ctx.nodes.length }, ?_, by rw [h.built.size]⟩
  split at hadd
  · split at hadd
    · cases hadd
      rw [getElem?_append_left (by simpa using hlt), getElem?_set_self hlt]
    · cases hadd
  · cases hadd
    rw [getElem?_append_left (by simpa using hlt), getElem?_set_self hlt]

theorem item_placed {place' : Place} (h : Placed place o ctx)
    (hn : Nested o.names (item :: items)) (hnext : place.next item = some place') :
    ∃ ctx', stepItem ctx item = .ok ctx' ∧ Placed place' (o.add item) ctx' := by
  cases item with
  | leaf label =>
    obtain ⟨hplace, rfl⟩ : place ≠ .lost ∧ place' = .inside := by cases place <;> cases hnext <;> simp
    exact leaf_placed label h hplace
  | opens label =>
    obtain ⟨hplace, rfl⟩ : place ≠ .lost ∧ place' = .fresh := by cases place <;> cases hnext <;> simp
    exact opens_placed label h hplace (by simpa [Outline.names] using hn.1)
  | closes name =>
    cases hs : o.stack with
    | nil => simp [Outline.names, hs, Nested] at hn
    | cons s stack =>
      simp only [Outline.names, hs, map_cons, Nested] at hn
      have hadd : o.add (.closes name) = ⟨o.entries, stack⟩ := by rw [Outline.add, hs]; rfl
      obtain rfl : (if place = .inside then .inside else .lost) = place' := by
        cases place <;> cases hnext <;> rfl
      rw [hadd]
      exact closes_placed h hs hn.1

/-- The rest of the text is nested in the blocks that are then open. -/
theorem item_nested (h : Opened o.entries o.stack)
    (hn : Nested o.names (item :: items)) : Nested (o.add item).names items := by
  cases item with
  | leaf label => simpa only [Outline.names, Outline.add, h.labels, Nested] using hn
  | opens label =>
    simpa only [Outline.names, Outline.add, map_cons, labelAt_append_last, h.labels] using hn.2
  | closes name =>
    cases hs : o.stack with
    | nil => simp [Outline.names, hs, Nested] at hn
    | cons s stack =>
      simp only [Outline.names, hs, map_cons, Nested] at hn
      simpa only [Outline.names, Outline.add, hs, tail_cons] using hn.2

/-! ### A link that is there stays -/

def Linked (nodes : List Node) (k j : Nat) : Prop := ∃ node, nodes[k]? = some node ∧ node.next = some j

theorem addNode_linked (h : addNode ctx label = .ok ctx') (hl : Linked ctx.nodes k j) :
    Linked ctx'.nodes k j := by
  obtain ⟨current, node', new, hcur, hnext, -, rfl⟩ := addNode_cases h
  obtain ⟨node, hk, hj⟩ := hl
  have hlt := (List.getElem?_eq_some_iff.mp hk).1
  rw [Linked, List.getElem?_append_left (by simpa using hlt)]
  by_cases hck : ctx.current = k
  · subst hck
    rw [hcur] at hk
    cases hk
    refine ⟨node', List.getElem?_set_self hlt, ?_⟩
    rcases hnext with hnext | ⟨hnone, -⟩
    · exact hnext.trans hj
    · rw [hnone] at hj; cases hj
  · exact ⟨node, by rw [List.getElem?_set_ne hck, hk], hj⟩

theorem stepItem_linked (h : stepItem ctx item = .ok ctx') (hl : Linked ctx.nodes k j) :
    Linked ctx'.nodes k j := by
  cases item with
  | leaf label => exact addNode_linked h hl
  | opens label =>
    obtain ⟨ctx1, levels, h1, rfl⟩ := openTag_cases h
    have hl1 : Linked ctx1.nodes k j := addNode_linked h1 hl
    exact hl1
  | closes name =>
    obtain ⟨current, levels, rfl⟩ := closes_cases h
    exact hl

theorem run_linked (h : run stepItem ctx items = .ok ctx') (hl : Linked ctx.nodes k j) :
    Linked ctx'.nodes k j := by
  induction items generalizing ctx with
  | nil => cases h; exact hl
  | cons item items ih =>
    obtain ⟨ctx1, h1, h⟩ := bind_eq_ok.mp h
    exact ih h (stepItem_linked h1 hl)

theorem foldl_add_entries (items : List Item) (o : Outline) :
    ∃ ext, (items.foldl Outline.add o).entries = o.entries ++ ext := by
  induction items generalizing o with
  | nil => exact ⟨[], by simp⟩
  | cons item items ih =>
    obtain ⟨ext, hext⟩ := ih (o.add item)
    rw [foldl_cons, hext]
    cases item with
    | leaf label | opens label => exact ⟨(label, o.top) :: ext, by simp [Outline.add]⟩
    | closes name => exact ⟨ext, rfl⟩

/-- A directive is never linked behind the block that it is in. -/
theorem not_built_of_linked {es : List (Label × Nat)} {top : Nat} (ho : Ordered es)
    (htop : top ≤ es.length) (hl : Linked nodes top (es.length + 1)) :
    ¬ Built nodes (es ++ (label, top) :: ext) := by
  intro hb
  obtain ⟨node, hnode, hnext⟩ := hl
  rw [hb.node top (by simp; omega)] at hnode
  cases hnode
  obtain ⟨q, hq, hchild⟩ := Option.bind_eq_some_iff.mp hnext
  have hblock := (childFrom_some hchild).2
  rw [blockAt_append_last] at hblock
  cases hblock
  rw [blockAt_append htop] at hq
  exact Nat.lt_irrefl top (ho top top hq)

theorem lost_misplaced {o' : Outline} {ctx1 ctx' : Ctx} (h : Placed .lost o ctx)
    (hadd : ∃ ctx2, addNode ctx label = .ok ctx2 ∧ ctx1.nodes = ctx2.nodes)
    (ho' : o'.entries = o.entries ++ [(label, o.top)]) (hrun : run stepItem ctx1 items = .ok ctx') :
    ¬ Built ctx'.nodes (items.foldl Outline.add o').entries := by
  obtain ⟨ctx2, h2, hnodes⟩ := hadd
  obtain ⟨ext, hext⟩ := foldl_add_entries items o'
  have hlinked : Linked ctx1.nodes o.top (o.entries.length + 1) := hnodes ▸ lost_adds h h2
  rw [hext, ho', append_assoc]
  exact not_built_of_linked h.ordered h.top_le (run_linked hrun hlinked)

/-- The nodes are linked as the outline has them exactly if the cursor is never lost in front of a
directive. -/
theorem run_built_iff (h : Placed place o ctx) (hn : Nested o.names items) :
    (∃ ctx', run stepItem ctx items = .ok ctx' ∧ ctx'.levels = [] ∧
      Built ctx'.nodes (items.foldl Outline.add o).entries) ↔ (items.foldlM Place.next place).isSome := by
  induction items generalizing place o ctx with
  | nil =>
    have hnil : o.stack = [] := by simpa [Outline.names, Nested] using hn
    exact iff_of_true ⟨ctx, rfl, h.levels.trans hnil, h.built⟩ rfl
  | cons item items ih =>
    rw [foldlM_cons, foldl_cons]
    cases hp : place.next item with
    | some place' =>
      obtain ⟨ctx1, h1, hplaced⟩ := item_placed h hn hp
      rw [run_cons, h1]
      exact ih hplaced (item_nested h.opened hn)
    | none =>
      refine iff_of_false ?_ (by simp)
      rintro ⟨ctx', hrun, -, hbuilt⟩
      obtain ⟨ctx1, h1, hrest⟩ := bind_eq_ok.mp hrun
      cases place with
      | inside | fresh => cases item <;> cases hp
      | lost =>
        cases item with
        | leaf label => exact lost_misplaced h ⟨ctx1, h1, rfl⟩ rfl hrest hbuilt
        | opens label =>
          obtain ⟨ctx2, levels, h2, rfl⟩ := openTag_cases h1
          refine lost_misplaced h ⟨ctx2, h2, ?_⟩ rfl hrest hbuilt
          rfl
        | closes name => cases hp

end Step

/-! ## Empty blocks -/

def OnlyCloses (items : List Item) : Prop := ∀ item ∈ items, ∃ name, item = .closes name

/-- No directive comes behind a block without directives. -/
def NothingAfterEmpty (items : List Item) : Prop :=
  ∀ pre label name post, items = pre ++ .opens label :: .closes name :: post → OnlyCloses post

theorem nothingAfterEmpty_cons :
    NothingAfterEmpty (item :: items) ↔
      ((∃ label, item = .opens label) → ∀ name post, items = .closes name :: post →
        OnlyCloses post) ∧ NothingAfterEmpty items := by
  constructor
  · intro h
    refine ⟨?_, ?_⟩
    · rintro ⟨label, rfl⟩ name post rfl
      exact h [] label name post rfl
    · rintro pre label name post rfl
      exact h (item :: pre) label name post rfl
  · rintro ⟨hhead, htail⟩ pre label name post heq
    cases pre with
    | nil =>
      cases heq
      exact hhead ⟨label, rfl⟩ name post rfl
    | cons x pre =>
      cases heq
      exact htail pre label name post rfl

theorem places_lost : (items.foldlM Place.next .lost).isSome ↔ OnlyCloses items := by
  induction items with
  | nil => simp [OnlyCloses]
  | cons item items ih =>
    rw [foldlM_cons, OnlyCloses, forall_mem_cons]
    cases item with
    | leaf label => simp [Place.next]
    | opens label => simp [Place.next]
    | closes name => simpa [Place.next, OnlyCloses] using ih

theorem OnlyCloses.nothingAfterEmpty (h : OnlyCloses items) : NothingAfterEmpty items := by
  rintro pre label name post rfl
  obtain ⟨n, hn⟩ := h (.opens label) (by simp)
  cases hn

theorem places_ok :
    ((items.foldlM Place.next .inside).isSome ↔ NothingAfterEmpty items) ∧
    ((items.foldlM Place.next .fresh).isSome ↔
      (∀ name post, items = .closes name :: post → OnlyCloses post) ∧ NothingAfterEmpty items) := by
  induction items with
  | nil => simp [NothingAfterEmpty]
  | cons item items ih =>
    obtain ⟨hinside, hfresh⟩ := ih
    rw [foldlM_cons, foldlM_cons, nothingAfterEmpty_cons]
    cases item with
    | leaf label => simp [Place.next, hinside]
    | opens label => simp [Place.next, hfresh]
    | closes name =>
      have hcloses : OnlyCloses items → NothingAfterEmpty items := OnlyCloses.nothingAfterEmpty
      simpa [Place.next, hinside, places_lost] using hcloses

/-! ## The tree as it is read -/

def follow (nodes : List Node) : Nat → Option Nat → List Nat
  | 0, _ => []
  | _ + 1, none => []
  | fuel + 1, some i => i :: follow nodes fuel (nodes[i]?.bind Node.next)

def directives (es : List (Label × Nat)) (p : Nat) : List Nat :=
  (List.range' 1 es.length).filter fun k => decide (blockAt es k = some p)

/-- The nodes are the directives of the text, and following the links from a block lists its
directives. -/
structure Mirrors (nodes : List Node) (es : List (Label × Nat)) : Prop where
  built : Built nodes es
  children : ∀ k node, nodes[k]? = some node → follow nodes nodes.length node.first_child = directives es k

theorem childFrom_step {p k : Nat} (hk : k < es.length) :
    childFrom es p k = if blockAt es (k + 1) = some p then some (k + 1) else childFrom es p (k + 1) := by
  rw [childFrom, drop_eq_getElem_cons hk, findIdx?_cons, blockAt, getElem?_eq_getElem hk]
  by_cases hp : es[k].2 = p
  · simp [hp]
  · simp only [hp, decide_false, Bool.false_eq_true, if_false, Option.map_some, Option.some.injEq,
      childFrom, Option.map_map]
    congr 1
    funext i
    simp only [Function.comp_apply]
    omega

theorem follow_children (h : Built nodes es) (p : Nat) {n k : Nat} (hk : k + n = es.length)
    (hfuel : n < fuel) : follow nodes fuel (childFrom es p k) = (range' (k + 1) n).filter fun k =>
    decide (blockAt es k = some p) := by
  induction n generalizing k fuel with
  | zero =>
    obtain ⟨fuel, rfl⟩ : ∃ f, fuel = f + 1 := ⟨fuel - 1, by omega⟩
    have hnone : childFrom es p k = none := childFrom_none.mpr fun i hi hb => by have := blockAt_le hb; omega
    rw [hnone]
    rfl
  | succ n ih =>
    obtain ⟨fuel, rfl⟩ : ∃ f, fuel = f + 1 := ⟨fuel - 1, by omega⟩
    rw [childFrom_step (by omega), range'_succ, filter_cons]
    by_cases hb : blockAt es (k + 1) = some p
    · have hnext : (nodes[k + 1]?.bind Node.next) = childFrom es p (k + 1) := by
        have hsibling : nextSibling es (k + 1) = childFrom es p (k + 1) := by
          rw [nextSibling, hb, Option.bind_some]
        rw [h.node (k + 1) (by omega), ← hsibling]
        rfl
      rw [if_pos hb, if_pos (by simpa using hb), follow, hnext, ih (by omega) (by omega)]
    · rw [if_neg hb, if_neg (by simpa using hb), ih (by omega) (by omega)]

theorem Built.mirrors (h : Built nodes es) : Mirrors nodes es := by
  refine ⟨h, fun k node hk => ?_⟩
  have hlt := (List.getElem?_eq_some_iff.mp hk).1
  rw [h.size] at hlt
  rw [h.node k (by omega)] at hk
  cases hk
  exact follow_children h k (Nat.zero_add _) (by rw [h.size]; omega)

theorem start_placed : Placed .fresh ⟨[], []⟩ Ctx.start := by
  refine ⟨?_, ⟨rfl, ?_⟩, rfl, trivial, rfl, rfl, rfl⟩
  · intro k p hb
    cases k <;> cases hb
  · intro k hk
    obtain rfl : k = 0 := by simpa using hk
    rfl

/-- A text with properly nested tags is parsed into its tree exactly if no directive comes behind an
empty block. -/
theorem conf_tree_iff {env : ConfEnv} {rounds depth : Nat} {filename text : Bytes}
    {items : List Item} (h : textItems filename text = some items) (hn : Nested [] items) :
    (∃ ctx, cfgParse env rounds (depth + 1) filename Ctx.start text = .ok ctx ∧
      Mirrors ctx.nodes (outline items)) ↔
      NothingAfterEmpty items := by
  have hparse : ∀ ctx', cfgParse env rounds (depth + 1) filename Ctx.start text = .ok ctx' ↔
      run stepItem Ctx.start items = .ok ctx' ∧ ctx'.levels = [] := parse_items ⟨rfl, rfl⟩ h
  have hplaces : (items.foldlM Place.next .fresh).isSome ↔ NothingAfterEmpty items := by
    refine places_ok.2.trans ⟨And.right, fun he => ⟨?_, he⟩⟩
    rintro name post rfl
    exact hn.elim
  rw [← hplaces, ← run_built_iff start_placed hn]
  refine exists_congr fun ctx => ?_
  rw [hparse, and_assoc]
  exact and_congr_right fun _ => and_congr_right fun _ => ⟨Mirrors.built, Built.mirrors⟩

def blockText : Bytes := ascii "<A>\nb c\n</A>\nd e\n"

def blockItems : List Item :=
  [.opens ⟨ascii "A", [], 3, [], 1⟩, .leaf ⟨ascii "b", ascii "c", 2, [], 2⟩, .closes (ascii "A"),
    .leaf ⟨ascii "d", ascii "e", 2, [], 4⟩]

theorem conf_tree_block : textItems [] blockText = some blockItems ∧ Nested [] blockItems ∧
    ∃ ctx, cfgParse noFiles 1 1 [] Ctx.start blockText = .ok ctx ∧ Mirrors ctx.nodes (outline blockItems) := by
  have hitems : textItems [] blockText = some blockItems := by decide +kernel
  have hnested : Nested [] blockItems := ⟨by decide, by decide, rfl⟩
  exact ⟨hitems, hnested, (conf_tree_iff hitems hnested).mpr (places_ok.1.mp rfl)⟩

def emptyBlockText : Bytes := ascii "<A>\n</A>\nd e\n"

def emptyBlockItems : List Item :=
  [.opens ⟨ascii "A", [], 3, [], 1⟩, .closes (ascii "A"), .leaf ⟨ascii "d", ascii "e", 2, [], 3⟩]

/-- The directive is linked behind the root: it is not among the directives that are found from
there. -/
theorem conf_tree_empty_block : textItems [] emptyBlockText = some emptyBlockItems ∧
    Nested [] emptyBlockItems ∧ directives (outline emptyBlockItems) 0 = [1, 2] ∧
    ∃ ctx root, cfgParse noFiles 1 1 [] Ctx.start emptyBlockText = .ok ctx ∧ ctx.nodes[0]? = some root ∧
      follow ctx.nodes ctx.nodes.length root.first_child = [1] ∧ root.next = some 2 := by
  refine ⟨by decide +kernel, ⟨by decide, by decide, rfl⟩, by decide +kernel, _, _, rfl, rfl, ?_, ?_⟩
  · decide +kernel
  · decide +kernel

end Nxlog.L4.Conf
