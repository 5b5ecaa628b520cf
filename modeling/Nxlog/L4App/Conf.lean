import Nxlog.L3Protocol.Date

/-!
# The configuration parser (`common/confparser.c`)

A configuration file is read line by line. A line is a directive with its arguments, an
opening tag or a closing tag; the directives become the nodes of a tree, which is built
with one cursor. `include` parses another file in between, at the same cursor, and
`define` adds a text that later lines are searched for.

The nodes are in a list in the order in which they are allocated and a pointer to a node
is its place there; the root is at place 0. What APR does with files and patterns is a
parameter (`ConfEnv`).

* `getline`: a line, with the continuation lines behind it.
* `substDefines`: the texts of the defines.
* `parseLine`, `addNode`, `openTag`, `closeTag`: what a line does.
* `cfgParse`: a file.
-/
namespace Nxlog.L4.Conf
open L1 L3 Res List

def maxStringLen : Nat := 8192

def maxDepth : Nat := 10

def caseEq (a b : Bytes) : Bool := a.map toLower = b.map toLower

def shown (text : Bytes) : String := String.ofList (text.map fun c => Char.ofNat c.toNat)

/-! ## Lines -/

/-- `apr_file_gets(buf, n)`: a line with its LF, or `n - 1` bytes of it; `none` at the end of the
file. -/
def gets (n : Nat) (file : Bytes) : Option (Bytes × Bytes) :=
  if file = [] then none
  else
    let len := min (n - 1) (file.findIdx (decide <| · = 10) + 1)
    some (file.take len, file.drop len)

inductive Continued where
  | whole (line : Bytes)
  | more (line : Bytes)

/-- A text without its last byte, if that is `c`. -/
def withoutLast (c : UInt8) (text : Bytes) : Option Bytes :=
  if text.getLast? = some c then some text.dropLast else none

/-- common/confparser.c:530-563: a backslash in front of the line end asks for another line; of two,
one is removed. -/
def continuation (line : Bytes) : Continued :=
  match withoutLast 10 line with
  | none => .whole line
  | some text =>
    match withoutLast 92 ((withoutLast 13 text).getD text) with
    | none => .whole line
    | some text => if text.getLast? = some 92 then .whole (text ++ line.drop (text.length + 1)) else .more text

def trimRight (line : Bytes) : Bytes := (line.reverse.dropWhile isSpace).reverse

/-- A line as `nx_cfg_parse` gets it, and where the file stands behind it. -/
structure Line where
  text : Bytes
  trimmedspace : Nat
  line_num : Nat
  rest : Bytes

/-- The loop of `nx_cfg_getline`: `n` bytes of the buffer are left behind `buf`. They stay more than
two: a line that fits in them is one byte shorter, and two bytes of it are overwritten. The line
number is counted also where the file ends. -/
def readLine (dont_parse : Bool) : Nat → Bytes → Nat → Nat → Bytes → Nat × Option (Bytes × Bytes)
  | 0, _, _, line_num, _ => (line_num, none)
  | fuel + 1, buf, n, line_num, file =>
    match gets n file with
    | none => (line_num + 1, none)
    | some (chunk, rest) =>
      if dont_parse then (line_num + 1, some (buf ++ (cut chunk).1, rest))
      else
        match continuation (cut chunk).1 with
        | .whole line => (line_num + 1, some (buf ++ line, rest))
        | .more line => readLine dont_parse fuel (buf ++ line) (n - line.length) (line_num + 1) rest

/-- mirrors common/confparser.c:507-606 (`nx_cfg_getline`): the line number and, unless the file has
ended, the line. Each round of the loop takes a byte of the file. -/
def getline (dont_parse : Bool) (line_num : Nat) (file : Bytes) : Nat × Option Line :=
  match readLine dont_parse (file.length + 1) [] maxStringLen line_num file with
  | (line_num, none) => (line_num, none)
  | (line_num, some (buf, rest)) =>
    if dont_parse then (line_num, some ⟨buf, 0, line_num, rest⟩)
    else
      let text := buf.dropWhile isSpace
      (line_num, some ⟨trimRight text, buf.length - text.length, line_num, rest⟩)

/-! Each line takes bytes of the file, so the loops over the lines end. -/

variable {file rest : Bytes}

theorem gets_shorter {n : Nat} {chunk : Bytes} (hn : 2 < n) (h : gets n file = some (chunk, rest)) :
    rest.length < file.length ∧ chunk.length < n := by
  rw [gets] at h
  split at h
  · cases h
  · next hf =>
    cases h
    have := length_pos_iff.mpr hf
    simp only [length_drop, length_take]
    omega

theorem withoutLast_length {c : UInt8} {text text' : Bytes} (h : withoutLast c text = some text') :
    text'.length + 1 = text.length := by
  rw [withoutLast] at h
  split at h
  · next hl =>
    cases h
    have hne : text ≠ [] := by rintro rfl; cases hl
    have := length_pos_iff.mpr hne
    rw [length_dropLast]
    omega
  · cases h

theorem continuation_length (line : Bytes) :
    match continuation line with
    | .whole text => text.length ≤ line.length
    | .more text => text.length + 2 ≤ line.length := by
  rw [continuation]
  cases h1 : withoutLast 10 line with
  | none => exact Nat.le_refl _
  | some t1 =>
    dsimp only
    have hl1 := withoutLast_length h1
    have hl : ((withoutLast 13 t1).getD t1).length ≤ t1.length := by
      cases hr : withoutLast 13 t1 with
      | none => exact Nat.le_refl _
      | some t => have := withoutLast_length hr; simp only [Option.getD_some]; omega
    cases h2 : withoutLast 92 ((withoutLast 13 t1).getD t1) with
    | none => exact Nat.le_refl _
    | some t2 =>
      dsimp only
      have hl2 := withoutLast_length h2
      by_cases hb : t2.getLast? = some 92
      · rw [if_pos hb]
        simp only [length_append, length_drop]
        omega
      · rw [if_neg hb]
        omega

variable {dont_parse : Bool} {line_num k : Nat}

/-- A line takes a byte of the file, and fits in the buffer. -/
theorem readLine_bounds {fuel : Nat} {buf : Bytes} {n : Nat}     {text : Bytes} (hn : 2 < n)
    (hbuf : buf.length + n = maxStringLen)
    (h : readLine dont_parse fuel buf n line_num file = (k, some (text, rest))) :
    rest.length < file.length ∧ text.length < maxStringLen := by
  induction fuel generalizing buf n line_num file with
  | zero => cases h
  | succ fuel ih =>
    rw [readLine] at h
    cases hg : gets n file with
    | none => rw [hg] at h; cases h
    | some p =>
      obtain ⟨chunk, rest1⟩ := p
      obtain ⟨hrest, hchunk⟩ := gets_shorter hn hg
      have hcut : (cut chunk).1.length ≤ chunk.length := (takeWhile_sublist _).length_le
      have hcont := continuation_length (cut chunk).1
      rw [hg] at h
      dsimp only at h
      split at h
      · cases h
        refine ⟨hrest, ?_⟩
        rw [length_append]
        omega
      cases hc : continuation (cut chunk).1 with
      | whole line =>
        rw [hc] at h hcont
        cases h
        refine ⟨hrest, ?_⟩
        rw [length_append]
        omega
      | more line =>
        rw [hc] at h hcont
        have hnext : (buf ++ line).length + (n - line.length) = maxStringLen := by
          rw [length_append]
          omega
        obtain ⟨hrest1, htext⟩ := ih (by omega) hnext h
        exact ⟨hrest1.trans hrest, htext⟩

theorem trimRight_length (text : Bytes) : (trimRight text).length ≤ text.length := by
  have h : (text.reverse.dropWhile isSpace).length ≤ text.reverse.length := (dropWhile_sublist _).length_le
  rw [length_reverse] at h
  rwa [trimRight, length_reverse]

theorem getline_bounds {line : Line} (h : getline dont_parse line_num file = (k, some line)) :
    line.rest.length < file.length ∧ line.text.length < maxStringLen := by
  rw [getline] at h
  split at h
  · cases h
  next buf rest hr =>
  obtain ⟨hrest, hbuf⟩ := readLine_bounds (by decide) rfl hr
  split at h
  · cases h
    exact ⟨hrest, hbuf⟩
  · cases h
    have htrim := trimRight_length (buf.dropWhile isSpace)
    have hdrop : (buf.dropWhile isSpace).length ≤ buf.length := (dropWhile_sublist _).length_le
    exact ⟨hrest, by dsimp only; omega⟩

/-! ## Words -/

/-- mirrors common/confparser.c:36-63 (`substring_conf`). -/
def substringConf (quote : Option UInt8) : Bytes → Bytes
  | 92 :: c :: p =>
    if c = 92 ∨ quote = some c then c :: substringConf quote p else 92 :: substringConf quote (c :: p)
  | c :: p => c :: substringConf quote p
  | [] => []

/-- The text up to the closing quote, and the text from there on. -/
def quoted (quote : UInt8) : Bytes → Bytes × Bytes
  | [] => ([], [])
  | 92 :: c :: p =>
    if c = quote ∨ c = 92 then
      let (word, rest) := quoted quote p
      (92 :: c :: word, rest)
    else if (92 : UInt8) = quote then ([], 92 :: c :: p)
    else
      let (word, rest) := quoted quote (c :: p)
      (92 :: word, rest)
  | c :: p =>
    if c = quote then ([], c :: p)
    else
      let (word, rest) := quoted quote p
      (c :: word, rest)

/-- mirrors common/confparser.c:67-125 (`nx_cfg_getword`): the word and what `*line` is left at. -/
def getword (line : Bytes) : Bytes × Bytes :=
  match line.dropWhile isSpace with
  | [] => ([], [])
  | c :: p =>
    if c = 34 ∨ c = 39 then
      let (word, rest) := quoted c p
      (substringConf (some c) word, (if rest.head? = some c then rest.tail else rest).dropWhile isSpace)
    else
      let str := c :: p
      (substringConf none (str.takeWhile (!isSpace ·)), (str.dropWhile (!isSpace ·)).dropWhile isSpace)

variable {q c : UInt8}

/-- How a word is written between quotes. -/
def quoteEscape (q c : UInt8) : EscAct := if c = 92 ∨ c = q then .pair 92 c else .keep

theorem quoted_cons (hc : c ≠ 92) (p : Bytes) :
    quoted q (c :: p) = if c = q then ([], c :: p) else (c :: (quoted q p).1, (quoted q p).2) := by
  rw [quoted]
  rintro d p' rfl
  exact absurd rfl hc

theorem escaped_quote (s : Bytes) :
    escaped (quoteEscape q) (c :: s) =
      if c = 92 ∨ c = q then 92 :: c :: escaped (quoteEscape q) s else c :: escaped (quoteEscape q) s := by
  by_cases hc : c = 92 ∨ c = q <;> simp [escaped, quoteEscape, hc]

theorem quoted_escaped (hq : q ≠ 92) (r s : Bytes) :
    quoted q (escaped (quoteEscape q) s ++ q :: r) = (escaped (quoteEscape q) s, q :: r) := by
  induction s with
  | nil => rw [escaped_nil, nil_append, quoted_cons hq, if_pos rfl]
  | cons c s ih =>
    rw [escaped_quote]
    split
    · rename_i hc
      rw [cons_append, cons_append, quoted, if_pos hc.symm, ih]
    · rename_i hc
      rw [cons_append, quoted_cons fun h => hc (.inl h), if_neg fun h => hc (.inr h), ih]

theorem substringConf_escaped (s : Bytes) : substringConf (some q) (escaped (quoteEscape q) s) = s := by
  induction s with
  | nil => rfl
  | cons c s ih =>
    rw [escaped_quote]
    split
    · rename_i hc
      rw [substringConf, if_pos (hc.imp_right fun h => congrArg some h.symm), ih]
    · rename_i hc
      rw [substringConf, ih]
      rintro d p rfl
      exact absurd rfl fun h => hc (.inl h)

/-- A word between either kind of quotes is read back as it was, with any line behind it. -/
theorem getword_quoted (s r : Bytes) :
    getword (34 :: (escaped (quoteEscape 34) s ++ 34 :: r)) = (s, r.dropWhile isSpace) ∧
      getword (39 :: (escaped (quoteEscape 39) s ++ 39 :: r)) = (s, r.dropWhile isSpace) := by
  have hword : ∀ q : UInt8, q = 34 ∨ q = 39 →
      getword (q :: (escaped (quoteEscape q) s ++ q :: r)) = (s, r.dropWhile isSpace) := by
    intro q hq
    have hspace : isSpace q = false := by rcases hq with rfl | rfl <;> decide
    have hback : q ≠ 92 := by rcases hq with rfl | rfl <;> decide
    rw [getword, dropWhile_cons_of_neg (by simp [hspace])]
    dsimp only
    rw [if_pos hq, quoted_escaped hback]
    simp [substringConf_escaped]
  exact ⟨hword 34 (.inl rfl), hword 39 (.inr rfl)⟩

/-! ## The tree -/

structure Label where
  directive : Bytes
  args : Bytes
  argsstart : Nat
  filename : Bytes
  line_num : Nat
  deriving DecidableEq, Repr

/-- `nx_directive_t`; the root has no `args`, which is only looked at for other nodes. -/
structure Node where
  label : Label
  parent : Option Nat
  first_child : Option Nat
  next : Option Nat
  deriving DecidableEq, Repr

/-- `nx_cfg_parser_ctx_t`: `levels` starts with the innermost open block, and `defines` with the
last one. -/
structure Ctx where
  nodes : List Node
  current : Nat
  next_is_child : Bool
  defines : List Label
  levels : List Nat
  dont_parse : Bool

/-- The context of core/ctx.c:110-120. -/
def Ctx.start : Ctx := ⟨[⟨⟨ascii "Root", [], 0, [], 0⟩, none, none, none⟩], 0, true, [], [], false⟩

def nodeAt (nodes : List Node) (i : Nat) : Res Node :=
  match nodes[i]? with
  | none => Res.fault
  | some node => .ok node

variable (env : ConfEnv) (filename : Bytes) (ctx : Ctx)

/-- mirrors common/confparser.c:130-158 (`add_node`). -/
def addNode (label : Label) : Res Ctx := do
  let current ← nodeAt ctx.nodes ctx.current
  let new := ctx.nodes.length
  if ctx.next_is_child then
    if current.first_child = none then
      let nodes := ctx.nodes.set ctx.current { current with first_child := some new }
      .ok { ctx with nodes := nodes ++ [⟨label, some ctx.current, none, none⟩], current := new, next_is_child := false }
    else .error (.assert "ctx->current->first_child == NULL")
  else if current.next = none then
    let nodes := ctx.nodes.set ctx.current { current with next := some new }
    match current.parent with
    | none =>
      if ctx.current = 0 then
        .ok { ctx with nodes := nodes ++ [⟨label, some 0, none, none⟩], current := new }
      else .error (.assert "ctx->current == ctx->root")
    | some parent => .ok { ctx with nodes := nodes ++ [⟨label, some parent, none, none⟩], current := new }
  else .error (.assert "ctx->current->next == NULL")

/-- common/confparser.c:383-401: an opening tag. -/
def openTag (label : Label) : Res Ctx := do
  let new := ctx.nodes.length
  let ctx ← addNode ctx label
  if maxDepth ≤ ctx.levels.length then
    Res.throw ("config file tag nesting is too large at " ++ shown label.filename ++ ":" ++
      toString label.line_num)
  else .ok { ctx with next_is_child := true, levels := new :: ctx.levels }

/-- The last of the nodes that follow node `i`; the loop makes no more rounds than there are
nodes. -/
def lastSibling (nodes : List Node) : Nat → Nat → Res Nat
  | 0, _ => Res.hang
  | fuel + 1, i => do
    let node ← nodeAt nodes i
    match node.next with
    | none => .ok i
    | some j => lastSibling nodes fuel j

/-- The node above the cursor; the body of a block that is not parsed has no nodes. -/
def blockOf (prev_dont_parse : Bool) : Res (Option Nat) :=
  if prev_dont_parse then .ok (some ctx.current)
  else do
    let current ← nodeAt ctx.nodes ctx.current
    .ok current.parent

/-- common/confparser.c:430-440: up a level. -/
def leaveBlock (prev_dont_parse : Bool) (levels : List Nat) : Res Ctx := do
  let block ← blockOf ctx prev_dont_parse
  match block with
  | none => .error (.assert "ctx->current != NULL")
  | some block => do
    let current ← lastSibling ctx.nodes ctx.nodes.length block
    .ok { ctx with current, next_is_child := false, levels }

def atLine (line_num : Nat) : String := " at " ++ shown filename ++ ":" ++ toString line_num

/-- common/confparser.c:402-441: a closing tag. -/
def closeTag (prev_dont_parse : Bool) (cmd_name filename : Bytes) (line_num : Nat) : Res Ctx :=
  match ctx.levels with
  | [] => Res.throw (shown cmd_name ++ " without matching <" ++ shown
      (cmd_name.drop 2) ++ " section" ++ atLine filename line_num)
  | level :: levels =>
    if cmd_name.getLast? ≠ some 62 then
      Res.throw (shown cmd_name ++ "> directive missing closing '>'" ++ atLine filename line_num)
    else do
      let node ← nodeAt ctx.nodes level
      let name := cmd_name.dropLast
      if caseEq (name.drop 2) node.label.directive then leaveBlock ctx prev_dont_parse levels
      else Res.throw ("Expected </" ++ shown node.label.directive ++ "> but saw " ++ shown name ++
        ">" ++ atLine filename line_num)

def rawBlocks : List String := ["Exec", "QueryXML"]

/-- mirrors common/confparser.c:168-201 (`need_body_parsed`). -/
def needBodyParsed (current_state : Bool) (tag : Bytes) : Bool :=
  if current_state then ¬ rawBlocks.any fun name => caseEq tag (ascii ("</" ++ name ++ ">"))
  else tag.head? = some 60 ∧ rawBlocks.any fun name => caseEq tag (ascii ("<" ++ name ++ ">"))

/-- common/confparser.c:238-245: a line of such a body. -/
def appendArgs (line : Bytes) : Res Ctx := do
  let current ← nodeAt ctx.nodes ctx.current
  if ctx.current = 0 then .error (.assert "ctx->current->args != NULL")
  else
    let label := { current.label with args := current.label.args ++ line }
    .ok { ctx with nodes := ctx.nodes.set ctx.current { current with label } }

/-- common/confparser.c:352-363: a tag without its bracket, if it is closed at once; the arguments
of an opening tag end with it. -/
def stripTag (cmd_name args : Bytes) : Bytes × Bytes :=
  if (cmd_name.drop 1).head? = some 47 then (cmd_name, args)
  else
    let name := if cmd_name.getLast? = some 62 then cmd_name.dropLast else cmd_name
    (name, if name.head? = some 60 ∧ args = [] then [62] else args)

def newdir (line : Line) (filename cmd_name args : Bytes) (argsstart : Nat) : Label :=
  ⟨cmd_name, if ctx.dont_parse then 10 :: args else args, argsstart + line.trimmedspace, filename,
    line.line_num⟩

/-- common/confparser.c:377-394: the word behind `define` is the name. -/
def addDefine (label : Label) : Ctx :=
  let (directive, args) := getword label.args
  { ctx with defines := { label with directive, args } :: ctx.defines }

/-- What an opening tag says: its name without the bracket, and its arguments without the last
byte. -/
def openLabel (label : Label) : Label :=
  { label with directive := label.directive.drop 1, args := label.args.dropLast }

/-- mirrors common/confparser.c:208-460 (`nx_cfg_parse_line`); `parseInclude` is the part of it that
parses other files. -/
def parseLine (parseInclude : Bytes → Ctx → Res Ctx) (filename : Bytes) (line : Line) (ctx : Ctx) : Res Ctx :=
  let l := line.text
  let (cmd_name, args) := getword l
  if l = [] ∨ cmd_name = [] then .ok ctx
  else
    let prev_dont_parse := ctx.dont_parse
    let ctx := { ctx with dont_parse := needBodyParsed ctx.dont_parse cmd_name }
    if prev_dont_parse ∧ ctx.dont_parse then appendArgs ctx l
    else if l.head? = some 35 then .ok ctx
    else if caseEq cmd_name (ascii "include") then parseInclude args ctx
    else
      let argsstart := l.length - args.length
      let (cmd_name, args) := stripTag cmd_name args
      let label := newdir ctx line filename cmd_name args argsstart
      if caseEq cmd_name (ascii "define") then .ok (addDefine ctx label)
      else if cmd_name.head? = some 60 then
        if (cmd_name.drop 1).head? = some 47 then closeTag ctx prev_dont_parse cmd_name filename line.line_num
        else openTag ctx (openLabel label)
      else addNode ctx label

/-! What these do to the nodes. -/

theorem nodeAt_eq {nodes : List Node} {i : Nat} {node : Node} (h : nodeAt nodes i = .ok node) :
    nodes[i]? = some node := by
  rw [nodeAt] at h
  split at h
  · cases h
  · next hn => cases h; exact hn

variable {ctx ctx' : Ctx} {label : Label}

/-- A new node: the node at the cursor gets a link that it did not have. -/
theorem addNode_cases (h : addNode ctx label = .ok ctx') :
    ∃ current node' new, ctx.nodes[ctx.current]? = some current ∧
      (node'.next = current.next ∨ current.next = none ∧ node'.next = some ctx.nodes.length) ∧
      new.next = none ∧ ctx' = { ctx with
        nodes := ctx.nodes.set ctx.current node' ++ [new]
        current := ctx.nodes.length
        next_is_child := false } := by
  obtain ⟨current, hcur, h⟩ := bind_eq_ok.mp h
  split at h
  · split at h
    · cases h
      refine ⟨current, _, _, nodeAt_eq hcur, ?_, ?_, rfl⟩
      · exact .inl rfl
      · rfl
    · cases h
  · next hchild =>
    rw [Bool.not_eq_true] at hchild
    split at h
    · next hnext =>
      split at h
      · split at h
        · cases h
          exact ⟨current, _, _, nodeAt_eq hcur, .inr ⟨hnext, rfl⟩, rfl, by rw [hchild]⟩
        · cases h
      · cases h
        exact ⟨current, _, _, nodeAt_eq hcur, .inr ⟨hnext, rfl⟩, rfl, by rw [hchild]⟩
    · cases h

theorem openTag_cases (h : openTag ctx label = .ok ctx') :
    ∃ ctx1 levels, addNode ctx label = .ok ctx1 ∧
    ctx' = { ctx1 with next_is_child := true, levels := levels } := by
  obtain ⟨ctx1, h1, h⟩ := bind_eq_ok.mp h
  split at h
  · cases h
  · cases h
    exact ⟨ctx1, _, h1, rfl⟩

theorem leaveBlock_cases {b : Bool} {levels : List Nat} (h : leaveBlock ctx b levels = .ok ctx') :
    ∃ current, ctx' = { ctx with current := current, next_is_child := false, levels := levels } := by
  obtain ⟨block, -, h⟩ := bind_eq_ok.mp h
  cases block with
  | none => cases h
  | some block =>
    obtain ⟨i, -, h⟩ := bind_eq_ok.mp h
    cases h
    exact ⟨i, rfl⟩

/-! ## Defines -/

/-- `strstr`: the place of the first occurrence. -/
def findSub (sub : Bytes) : Bytes → Option Nat
  | [] => if sub = [] then some 0 else none
  | c :: text => if sub.isPrefixOf (c :: text) then some 0 else (findSub sub text).map (· + 1)

/-- What APR and the file system do. `apr_snprintf` of a text that does not fit returns the size of
the buffer less one; `reportsOverflow` says whether it returns more, as `snprintf` does. -/
structure ConfEnv where
  reportsOverflow : Bool
  open_ : Bytes → Option Bytes
  isPattern : Bytes → Bool
  matching : Bytes → Option (List Bytes)

def noFiles : ConfEnv := ⟨false, fun _ => none, fun _ => false, fun _ => none⟩

def varname (define : Label) : Bytes := 37 :: (define.directive ++ [37])

/-- common/confparser.c:655-665: the text `pre ++ text` with the variable at place `i` of `text`
replaced. -/
def replaced (define : Label) (pre text : Bytes) (i : Nat) : Res Bytes :=
  let buf := pre ++ text.take i ++ define.args ++ text.drop (i + (varname define).length)
  if maxStringLen ≤ buf.length ∧ env.reportsOverflow then
    Res.throw ("config line is over the limit" ++ atLine define.filename define.line_num)
  else .ok (buf.take (maxStringLen - 1))

/-- The loop over the occurrences of a variable; `ptr` is behind `pre`. -/
def substDefine (env : ConfEnv) (define : Label) : Nat → Bytes → Bytes → Res Bytes
  | 0, _, _ => Res.hang
  | fuel + 1, pre, text =>
    match findSub (varname define) text with
    | none => .ok (pre ++ text)
    | some i => do
      let buf ← replaced env define pre text i
      substDefine env define fuel (pre ++ text.take i) (buf.drop (pre.length + i))

def substStep (fuel : Nat) (buf : Bytes) (define : Label) : Res Bytes :=
  if define.directive.length ≤ maxStringLen - 3 then substDefine env define fuel [] buf
  else .error (.assert "bufsize - 3 >= (int) strlen(curr->directive)")

/-- mirrors common/confparser.c:643-667 (`nx_cfg_subst_defines`), with `fuel` rounds for each
define. -/
def substDefines (fuel : Nat) (buf : Bytes) (defines : List Label) : Res Bytes :=
  run (substStep env fuel) buf defines

/-! ## Files -/

def rethrowMsg {α : Type} (msg : String) : Res α → Res α
  | .error (.throw m) => Res.throw (m ++ "; " ++ msg)
  | r => r

/-- The loop of `nx_cfg_parse`. -/
def parseLines (env : ConfEnv) (rounds : Nat) (parseInclude : Nat → Bytes → Ctx → Res Ctx)
    (filename : Bytes) : Nat → Nat → Ctx → Bytes → Res (Ctx × Nat)
  | 0, _, _, _ => Res.hang
  | fuel + 1, line_num, ctx, file =>
    match getline ctx.dont_parse line_num file with
    | (line_num, none) => .ok (ctx, line_num)
    | (_, some line) => do
      let text ← substDefines env rounds line.text ctx.defines
      let ctx ← parseLine (parseInclude line.line_num) filename { line with text } ctx
      parseLines env rounds parseInclude filename fuel line.line_num ctx line.rest

def atEnd (ctx : Ctx) (line_num : Nat) : Res Ctx :=
  match ctx.levels with
  | [] => .ok ctx
  | level :: _ => do
    let node ← nodeAt ctx.nodes level
    Res.throw ("Expected </" ++ shown node.label.directive ++ ">" ++ atLine filename line_num)

/-- The directory and the file name of a pattern. -/
def dirName (args : Bytes) : Bytes :=
  if args.contains 47 then (args.reverse.dropWhile (decide <| · ≠ 47)).reverse.dropLast else ascii "./"

/-- An included file, parsed with `parse`: it starts with no open block and leaves none. -/
def includeFile (parse : Bytes → Ctx → Bytes → Res Ctx) (ctx : Ctx) (name : Bytes) : Res Ctx :=
  match env.open_ name with
  | none => Res.throw ("Failed to open config file " ++ shown name)
  | some file => do
    let inc ← parse name { ctx with levels := [], dont_parse := false } file
    .ok { inc with levels := ctx.levels, dont_parse := ctx.dont_parse }

/-- common/confparser.c:252-347: `include`, with a pattern or with the name of a file. -/
def parseInclude (parse : Bytes → Ctx → Bytes → Res Ctx) (filename : Bytes) (line_num : Nat)
    (args : Bytes) (ctx : Ctx) : Res Ctx :=
  if env.isPattern args then
    rethrowMsg ("Couldn't process 'include' directive" ++ atLine filename line_num)
      (match env.matching args with
        | none => Res.throw ("couldn't open directory '" ++ shown (dirName args) ++
            "' specified in the 'include' directive")
        | some names => run (includeFile env parse) ctx names)
  else if (env.open_ args).isNone then
    Res.throw ("Failed to open config file " ++ shown args ++ "; Invalid 'include' directive" ++
      atLine filename line_num)
  else includeFile env parse ctx args

/-- mirrors common/confparser.c:671-708 (`nx_cfg_parse`) for an open file. Files may be included
`depth` deep. -/
def cfgParse (env : ConfEnv) (rounds : Nat) : Nat → Bytes → Ctx → Bytes → Res Ctx
  | 0, _, _, _ => Res.hang
  | depth + 1, filename, ctx, file => do
    let r ← parseLines env rounds (parseInclude env (cfgParse env rounds depth) filename) filename
      (file.length + 1) 0 ctx
      file
    atEnd filename r.1 r.2

end Nxlog.L4.Conf
