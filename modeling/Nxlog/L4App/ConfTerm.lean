import Nxlog.Core.Fuel
import Nxlog.L4App.Conf

/-!
# Whether the configuration parser ends

The text of a define is searched again from the place where it was put in, so a define
whose text begins with its own variable is replaced for ever. An `include` parses another
file before the next line, so files that include each other are parsed for ever.

* `substDefine_hangs`, `substDefine_ends`: one define, and one line.
* `substDefines_ends`: all defines.
* `FileMeets`: a condition at every line that is read and at every file that is opened.
* `cfgParse_ends_iff`: the parser, for files that can be ranked.
* `conf_terminates_iff`: both together.
-/
namespace Nxlog.L4.Conf
open L1 L3 Res List

variable {fuel m n : Nat} {ctx ctx' : Ctx} {file buf filename : Bytes} {env : ConfEnv} {define : Label}

/-! ## Defines -/

/-- The text of the define begins with its variable. Where `apr_snprintf` reports a text that does
not fit, the line must not grow either. -/
def Regenerates (env : ConfEnv) (define : Label) : Prop :=
  if env.reportsOverflow then define.args = varname define else varname define <+: define.args

/-- The line has no variable to replace, or replacing it comes to an end. -/
def Stops (env : ConfEnv) (buf : Bytes) (define : Label) : Prop :=
  findSub (varname define) buf = none ∨ ¬ Regenerates env define

instance (env : ConfEnv) (define : Label) : Decidable (Regenerates env define) :=
  inferInstanceAs (Decidable (if env.reportsOverflow then _ else _))

instance (env : ConfEnv) (buf : Bytes) (define : Label) : Decidable (Stops env buf define) :=
  inferInstanceAs (Decidable (_ ∨ _))

/-- Rounds that are enough for any define. -/
def substRounds : Nat := maxStringLen + 1

section FindSub

variable {sub text : Bytes} {i : Nat}

theorem findSub_some (h : findSub sub text = some i) : sub <+: text.drop i ∧ i ≤ text.length := by
  induction text generalizing i with
  | nil =>
    rw [findSub] at h
    split at h
    · next hs =>
      cases h
      exact ⟨by rw [hs]; exact nil_prefix, Nat.le_refl _⟩
    · cases h
  | cons c text ih =>
    rw [findSub] at h
    split at h
    · next hp =>
      cases h
      exact ⟨List.isPrefixOf_iff_prefix.mp hp, Nat.zero_le _⟩
    · obtain ⟨j, hj, rfl⟩ := Option.map_eq_some_iff.mp h
      obtain ⟨hp, hle⟩ := ih hj
      exact ⟨hp, Nat.succ_le_succ hle⟩

theorem findSub_front (h : sub <+: text) : findSub sub text = some 0 := by
  cases text with
  | nil => rw [findSub, if_pos (prefix_nil.mp h)]
  | cons c text => rw [findSub, if_pos (List.isPrefixOf_iff_prefix.mpr h)]

theorem findSub_pos (h : findSub sub text = some i) (hp : ¬ sub <+: text) : 0 < i := by
  cases i with
  | zero => exact absurd (by simpa using (findSub_some h).1) hp
  | succ i => exact Nat.succ_pos i

theorem findSub_length (h : findSub sub text = some i) : i + sub.length ≤ text.length := by
  obtain ⟨hp, hle⟩ := findSub_some h
  have := hp.length_le
  rw [length_drop] at this
  omega

end FindSub

section Define

variable {env : ConfEnv} {define : Label} {pre text : Bytes} {i : Nat}

theorem varname_length : (varname define).length = define.directive.length + 2 := by simp [varname]

def substituted (define : Label) (pre text : Bytes) (i : Nat) : Bytes :=
  pre ++ text.take i ++ define.args ++ text.drop (i + (varname define).length)

theorem replaced_eq (env : ConfEnv) (define : Label) (pre text : Bytes) (i : Nat) :
    replaced env define pre text i =
      if maxStringLen ≤ (substituted define pre text i).length ∧ env.reportsOverflow then
        Res.throw ("config line is over the limit" ++ atLine define.filename define.line_num)
      else .ok ((substituted define pre text i).take (maxStringLen - 1)) := rfl

theorem substituted_rest (hi : i ≤ text.length) :
    ((substituted define pre text i).take (maxStringLen - 1)).drop (pre.length + i) =
      (define.args ++ text.drop (i + (varname define).length)).take (maxStringLen - 1 - (pre.length + i)) := by
  have hlen : (pre ++ text.take i).length = pre.length + i := by simp [hi]
  rw [substituted, append_assoc (pre ++ text.take i), drop_take, drop_left' hlen]

theorem substDefine_round (hi : findSub (varname define) text = some i)
    (hfit : ¬ (maxStringLen ≤ (substituted define pre text i).length ∧ env.reportsOverflow)) :
    substDefine env define (fuel + 1) pre text = substDefine env define fuel (pre ++ text.take i)
      ((define.args ++ text.drop (i + (varname define).length)).take
        (maxStringLen - 1 - (pre.length + i))) := by
  have hle := (findSub_some hi).2
  rw [substDefine, hi]
  dsimp only
  rw [replaced_eq, if_neg hfit, ok_bind, substituted_rest hle]

theorem substDefine_none (hi : findSub (varname define) text = none) :
    substDefine env define (fuel + 1) pre text = .ok (pre ++ text) := by
  rw [substDefine, hi]

/-- A call ends if its next round does. -/
theorem substDefine_step (h : ∀ i, findSub (varname define) text = some i →
    ¬ (maxStringLen ≤ (substituted define pre text i).length ∧ env.reportsOverflow) →
    substDefine env define fuel (pre ++ text.take i)
    ((define.args ++ text.drop (i + (varname define).length)).take
      (maxStringLen - 1 - (pre.length + i))) ≠ Res.hang) :
        substDefine env define (fuel + 1) pre text ≠ Res.hang := by
  cases hi : findSub (varname define) text with
  | none =>
    rw [substDefine_none hi]
    exact ok_ne_hang _
  | some i =>
    by_cases hfit : maxStringLen ≤ (substituted define pre text i).length ∧ env.reportsOverflow
    · rw [substDefine, hi]
      dsimp only
      rw [replaced_eq, if_pos hfit, throw_bind]
      exact throw_ne_hang _
    · rw [substDefine_round hi hfit]
      exact h i hi hfit

theorem Regenerates.isPrefix (h : Regenerates env define) : varname define <+: define.args := by
  rw [Regenerates] at h
  split at h
  · exact h ▸ prefix_refl _
  · exact h

theorem Regenerates.fits (h : Regenerates env define) (hi : findSub (varname define) text = some i)
    (hlen : pre.length + text.length < maxStringLen) :
    ¬ (maxStringLen ≤ (substituted define pre text i).length ∧ env.reportsOverflow) := by
  intro ⟨hover, hrep⟩
  rw [Regenerates, if_pos hrep] at h
  have := findSub_length hi
  simp only [substituted, h, length_append, length_take, length_drop] at hover
  omega

/-- A variable that is in front of its own text is found for ever. -/
theorem substDefine_hangs (h : Regenerates env define) (fuel : Nat)
    (hi : findSub (varname define) text = some i)
    (hlen : pre.length + text.length < maxStringLen) : substDefine env define fuel pre text = Res.hang := by
  induction fuel generalizing pre text i with
  | zero => rfl
  | succ fuel ih =>
    have hfound := findSub_length hi
    rw [substDefine_round hi (h.fits hi hlen)]
    have hnext : varname define <+:
        (define.args ++ text.drop (i + (varname define).length)).take
          (maxStringLen - 1 - (pre.length + i)) := by
      rw [prefix_take_iff]
      exact ⟨h.isPrefix.trans (prefix_append _ _), by omega⟩
    refine ih (findSub_front hnext) ?_
    simp only [length_append, length_take]
    omega

/-! Otherwise each round takes something: of the line, where the text is shorter than the variable;
of the room behind the place that is reached, where the text does not begin with the variable; and
of the room for the line, where it grows and that is reported. -/

theorem substDefine_shorter (hshort : define.args.length < (varname define).length)
    (hfuel : text.length < fuel) : substDefine env define fuel pre text ≠ Res.hang := by
  induction fuel generalizing pre text with
  | zero => omega
  | succ fuel ih =>
    refine substDefine_step fun i hi _ => ih ?_
    have hfound := findSub_length hi
    simp only [length_take, length_append, length_drop]
    omega

variable (hlong : (varname define).length ≤ define.args.length) (hp : ¬ varname define <+: define.args)
include hlong hp

/-- What is searched next does not begin with the variable. -/
theorem next_not_front {rest : Bytes} {n : Nat} : ¬ varname define <+: (define.args ++ rest).take n := by
  intro hnext
  have hargs := hnext.trans (List.take_prefix _ _)
  exact hp (prefix_of_prefix_length_le hargs (prefix_append _ _) hlong)

theorem substDefine_advances (htext : ¬ varname define <+: text)
    (hlen : pre.length + text.length < maxStringLen) (hfuel : maxStringLen ≤ pre.length + fuel) :
    substDefine env define fuel pre text ≠ Res.hang := by
  induction fuel generalizing pre text with
  | zero => omega
  | succ fuel ih =>
    refine substDefine_step fun i hi _ => ?_
    have hfound := findSub_length hi
    have hpos := findSub_pos hi htext
    refine ih (next_not_front hlong hp) ?_ ?_
    · simp only [length_append, length_take, length_drop]
      omega
    · simp only [length_append, length_take]
      omega

omit hlong hp in
theorem substDefine_grows (hrep : env.reportsOverflow = true) (hlong :
    (varname define).length < define.args.length) (hlen : pre.length + text.length < maxStringLen)
    (hfuel : maxStringLen ≤ pre.length + text.length + fuel) :
    substDefine env define fuel pre text ≠ Res.hang := by
  induction fuel generalizing pre text with
  | zero => omega
  | succ fuel ih =>
    refine substDefine_step fun i hi hfit => ?_
    have hfound := findSub_length hi
    have hsize : (substituted define pre text i).length < maxStringLen := by
      by_contra hge
      exact hfit ⟨by omega, hrep⟩
    simp only [substituted, length_append, length_take, length_drop] at hsize
    refine ih ?_ ?_
    · simp only [length_append, length_take, length_drop]
      omega
    · simp only [length_append, length_take, length_drop]
      omega

theorem substDefine_advances_from (hlen : text.length < maxStringLen) :
    substDefine env define substRounds [] text ≠ Res.hang := by
  rw [substRounds]
  -- the variable may be in front in the first round only
  refine substDefine_step fun i hi _ => ?_
  refine substDefine_advances hlong hp (next_not_front hlong hp) ?_ (Nat.le_add_left _ _)
  simp only [nil_append, length_nil, length_append, length_take, length_drop]
  omega

omit hlong hp

theorem substDefine_ends (h : Stops env text define) (hlen : text.length < maxStringLen) :
    substDefine env define substRounds [] text ≠ Res.hang := by
  rcases h with hnone | hreg
  · rw [substRounds, substDefine_none hnone]
    exact ok_ne_hang _
  rcases Nat.lt_or_ge define.args.length (varname define).length with hshort | hlong
  · exact substDefine_shorter hshort (Nat.lt_succ_of_lt hlen)
  by_cases hp : varname define <+: define.args
  · rw [Regenerates] at hreg
    split at hreg
    · next hrep =>
      have hlt : (varname define).length < define.args.length := by
        refine Nat.lt_of_le_of_ne hlong fun heq => hreg ?_
        exact (hp.eq_of_length heq).symm
      exact substDefine_grows hrep hlt (by simpa using hlen) (by rw [substRounds]; omega)
    · exact absurd hp hreg
  · exact substDefine_advances_from hlong hp hlen

theorem substDefine_length (h : substDefine env define fuel pre text = .ok buf)
    (hlen : pre.length + text.length < maxStringLen) : buf.length < maxStringLen := by
  induction fuel generalizing pre text with
  | zero => cases h
  | succ fuel ih =>
    cases hi : findSub (varname define) text with
    | none =>
      rw [substDefine_none hi] at h
      cases h
      simpa using hlen
    | some i =>
      have hfound := findSub_length hi
      rw [substDefine, hi] at h
      obtain ⟨buf1, h1, h⟩ := bind_eq_ok.mp h
      rw [replaced_eq] at h1
      split at h1
      · cases h1
      · cases h1
        refine ih h ?_
        rw [substituted_rest (by omega)]
        simp only [length_append, length_take, length_drop]
        omega

theorem substDefine_below (hmn : m ≤ n) (pre text : Bytes) :
    Below (substDefine env define m pre text) (substDefine env define n pre text) := by
  induction m generalizing n pre text with
  | zero => exact below_of_hang rfl
  | succ m ih =>
    obtain ⟨n, rfl⟩ : ∃ k, n = k + 1 := ⟨n - 1, by omega⟩
    cases hi : findSub (varname define) text with
    | none =>
      rw [substDefine_none hi, substDefine_none hi]
      exact Below.refl _
    | some i =>
      rw [substDefine, substDefine, hi]
      exact bind_below (Below.refl _) fun buf => ih (by omega) _ _

end Define

theorem substStep_below (env : ConfEnv) (hmn : m ≤ n) (buf : Bytes) (define : Label) :
    Below (substStep env m buf define) (substStep env n buf define) := by
  rw [substStep, substStep]
  split
  · exact substDefine_below hmn [] buf
  · exact Below.refl _

theorem stops_of_substStep (hlen : buf.length < maxStringLen)
    (h : substStep env fuel buf define ≠ Res.hang) : Stops env buf define := by
  cases hi : findSub (varname define) buf with
  | none => exact .inl hi
  | some i =>
    have hfound := findSub_length hi
    rw [varname_length] at hfound
    rw [substStep, if_pos (by omega)] at h
    refine .inr fun hreg => h ?_
    exact substDefine_hangs hreg fuel hi (by simpa using hlen)

variable {rounds : Nat}

theorem substStep_ends (hr : substRounds ≤ rounds) (hlen : buf.length < maxStringLen) :
    (substStep env rounds buf define ≠ Res.hang ↔ Stops env buf define) ∧
      (Stops env buf define → substStep env substRounds buf define = substStep env rounds buf define) := by
  have hends : Stops env buf define → substStep env substRounds buf define ≠ Res.hang := by
    intro h
    rw [substStep]
    split
    · exact substDefine_ends h hlen
    · exact assert_ne_hang _
  have hsame := fun h => substStep_below env hr buf define (hends h)
  exact ⟨⟨stops_of_substStep hlen, fun h => by rw [hsame h]; exact hends h⟩, fun h => (hsame h).symm⟩

theorem substStep_length {buf buf' : Bytes}
    (hlen : buf.length < maxStringLen) (h : substStep env fuel buf define = .ok buf') :
    buf'.length < maxStringLen := by
  rw [substStep] at h
  split at h
  · exact substDefine_length h (by simpa using hlen)
  · cases h

/-- The line is searched for each define in turn, and each one stops. -/
def LineStops (env : ConfEnv) (buf : Bytes) (defines : List Label) : Prop :=
  Meets (substStep env substRounds) (Stops env) buf defines

theorem substDefines_ends (env : ConfEnv) (hr : substRounds ≤ rounds)
    (hlen : buf.length < maxStringLen) (defines : List Label) :
    (substDefines env rounds buf defines ≠ Res.hang ↔ LineStops env buf defines) ∧
      (LineStops env buf defines →
        substDefines env substRounds buf defines = substDefines env rounds buf defines) :=
  run_ends_iff (fun buf => buf.length < maxStringLen) (fun _ _ hs _ => substStep_ends hr hs)
    (fun _ _ _ hs => substStep_length hs) hlen (meets_true defines buf)

theorem substDefines_below (env : ConfEnv) (hmn : m ≤ n) (buf : Bytes) (defines : List Label) :
    Below (substDefines env m buf defines) (substDefines env n buf defines) :=
  run_below (substStep_below env hmn) buf defines

/-! ## Nodes

A node is followed by a later one, so looking for the last one ends. -/

structure Forward (nodes : List Node) : Prop where
  nonempty : nodes ≠ []
  later : ∀ k node j, nodes[k]? = some node → node.next = some j → k < j ∧ j < nodes.length

variable {nodes : List Node}

theorem lastSibling_ne_hang (h : Forward nodes) {fuel k : Nat} (hpos : 0 < fuel)
    (hfuel : nodes.length ≤ k + fuel) : lastSibling nodes fuel k ≠ Res.hang := by
  induction fuel generalizing k with
  | zero => omega
  | succ fuel ih =>
    rw [lastSibling, nodeAt]
    cases hk : nodes[k]? with
    | none => simp
    | some node =>
      simp only [ok_bind]
      cases hn : node.next with
      | none => exact ok_ne_hang k
      | some j =>
        obtain ⟨hkj, hj⟩ := h.later k node j hk hn
        exact ih (by omega) (by omega)

theorem Forward.set (h : Forward nodes) {k : Nat} {node node' : Node} (hk : nodes[k]? = some node)
    (hnext : node'.next = node.next) : Forward (nodes.set k node') := by
  refine ⟨by simpa using h.nonempty, ?_⟩
  intro i x j hi hj
  rw [length_set]
  rw [getElem?_set] at hi
  split at hi
  · next hki =>
    subst hki
    split at hi
    · cases hi
      exact h.later k node j hk (hnext ▸ hj)
    · cases hi
  · exact h.later i x j hi hj

theorem nodeAt_ends (nodes : List Node) (i : Nat) :
    Ends (fun node => nodes[i]? = some node) (nodeAt nodes i) := by
  rw [nodeAt]
  split
  · exact .error (by simp)
  · next hn => exact .ok hn

/-- The nodes stay linked forwards. -/
abbrev EndsForward : Res Ctx → Prop := Ends fun ctx => Forward ctx.nodes

variable {label : Label}

variable (h : Forward ctx.nodes)
include h

theorem addNode_ends : EndsForward (addNode ctx label) := by
  refine ⟨bind_ne_hang.mpr ⟨(nodeAt_ends _ _).1, fun current _ => ?_⟩, fun ctx' hadd => ?_⟩
  · dsimp only
    repeat' split
    all_goals simp
  obtain ⟨current, node', new, hcur, hnext, hnew, rfl⟩ := addNode_cases hadd
  have hlt := (List.getElem?_eq_some_iff.mp hcur).1
  refine ⟨by simp, ?_⟩
  intro k node j hk hj
  rw [List.getElem?_append, List.length_set, List.getElem?_set] at hk
  simp only [List.length_append, List.length_set, List.length_singleton]
  split at hk
  · split at hk
    · next hck =>
      subst hck
      cases hk
      rcases hnext with hnext | ⟨-, hnext⟩
      · obtain ⟨hkj, hj⟩ := h.later _ current j hcur (hnext ▸ hj)
        exact ⟨hkj, by omega⟩
      · rw [hnext] at hj
        cases hj
        exact ⟨hlt, by omega⟩
    · obtain ⟨hkj, hj⟩ := h.later k node j hk hj
      exact ⟨hkj, by omega⟩
  · obtain rfl : node = new := by
      rw [List.getElem?_singleton] at hk
      split at hk
      · exact (Option.some.inj hk).symm
      · cases hk
    rw [hnew] at hj
    cases hj

theorem openTag_ends : EndsForward (openTag ctx label) := by
  refine (addNode_ends h).bind fun ctx1 h1 => ?_
  split
  · exact .error nofun
  · exact .ok h1

theorem leaveBlock_ends (b : Bool) (levels : List Nat) :
    EndsForward (leaveBlock ctx b levels) := by
  refine Ends.bind (P := fun _ => True) ?_ fun block _ => ?_
  · rw [blockOf]
    split
    · exact .ok trivial
    · exact (nodeAt_ends _ _).bind fun _ _ => .ok trivial
  · cases block with
    | none => exact .error nofun
    | some block =>
      have hpos := length_pos_iff.mpr h.nonempty
      exact Ends.bind ⟨lastSibling_ne_hang h hpos (by omega), Post.self⟩ fun i _ => .ok h

theorem closeTag_ends (b : Bool) (cmd_name filename : Bytes) (line_num : Nat) :
    EndsForward (closeTag ctx b cmd_name filename line_num) := by
  rw [closeTag]
  split
  · exact .error nofun
  split
  · exact .error nofun
  · refine (nodeAt_ends _ _).bind fun node _ => ?_
    dsimp only
    split
    · exact leaveBlock_ends h b _
    · exact .error nofun

theorem appendArgs_ends {line : Bytes} : EndsForward (appendArgs ctx line) := by
  refine (nodeAt_ends _ _).bind fun current hcur => ?_
  split
  · exact .error nofun
  · exact .ok (h.set hcur rfl)

omit h

/-! ## Lines -/

/-- The arguments of an `include`, and the context it is parsed in. -/
def includeArgs (line : Line) (ctx : Ctx) : Option (Bytes × Ctx) :=
  let l := line.text
  let (cmd_name, args) := getword l
  let ctx' := { ctx with dont_parse := needBodyParsed ctx.dont_parse cmd_name }
  if l = [] ∨ cmd_name = [] then none
  else if ctx.dont_parse ∧ ctx'.dont_parse then none
  else if l.head? = some 35 then none
  else if caseEq cmd_name (ascii "include") then some (args, ctx')
  else none

section ParseLine

variable (inc inc' : Bytes → Ctx → Res Ctx) (filename : Bytes) (line : Line) (ctx : Ctx)

/-- A line that includes nothing ends, whatever is done with includes. -/
theorem parseLine_spec : match includeArgs line ctx with
    | some (args, ctx1) => parseLine inc filename line ctx = inc args ctx1 ∧ ctx1.nodes = ctx.nodes
    | none => parseLine inc filename line ctx = parseLine inc' filename line ctx ∧
        (Forward ctx.nodes → EndsForward (parseLine inc filename line ctx)) := by
  rw [includeArgs, parseLine, parseLine]
  rcases hw : getword line.text with ⟨cmd_name, args⟩
  rcases hs : stripTag cmd_name args with ⟨tag, targs⟩
  simp only [hs]
  by_cases hl : line.text = [] ∨ cmd_name = []
  · simp only [if_pos hl]
    exact ⟨trivial, fun hf => .ok hf⟩
  simp only [if_neg hl]
  by_cases hd : ctx.dont_parse ∧ needBodyParsed ctx.dont_parse cmd_name
  · simp only [if_pos hd]
    refine ⟨trivial, fun hf => appendArgs_ends ?_⟩
    exact hf
  simp only [if_neg hd]
  by_cases hc : line.text.head? = some 35
  · simp only [if_pos hc]
    exact ⟨trivial, fun hf => .ok hf⟩
  simp only [if_neg hc]
  by_cases hi : caseEq cmd_name (ascii "include")
  · simp only [if_pos hi]
    exact ⟨trivial, trivial⟩
  simp only [if_neg hi]
  refine ⟨trivial, fun hf => ?_⟩
  have hf1 : Forward ({ ctx with dont_parse := needBodyParsed ctx.dont_parse cmd_name } : Ctx).nodes := hf
  split
  · exact .ok hf1
  split
  · split
    · exact closeTag_ends hf1 _ _ _ _
    · exact openTag_ends hf1
  · exact addNode_ends hf1

variable {line ctx}

theorem parseLine_include {args : Bytes} {ctx1 : Ctx} (h : includeArgs line ctx = some (args, ctx1)) :
    parseLine inc filename line ctx = inc args ctx1 ∧ ctx1.nodes = ctx.nodes := by
  have := parseLine_spec inc inc filename line ctx
  rwa [h] at this

theorem parseLine_other (h : includeArgs line ctx = none) :
    parseLine inc filename line ctx = parseLine inc' filename line ctx ∧
      (Forward ctx.nodes → EndsForward (parseLine inc filename line ctx)) := by
  have := parseLine_spec inc inc' filename line ctx
  rwa [h] at this

end ParseLine

/-- At every line that is read, the line and the context meet `S`; at every `include`, its arguments
meet `I`. -/
def LinesMeet (env : ConfEnv) (inc : Nat → Bytes → Ctx → Res Ctx) (filename : Bytes)
    (S : Line → Ctx → Prop) (I : Bytes → Ctx → Prop) : Nat → Nat → Ctx → Bytes → Prop
  | 0, _, _, _ => True
  | fuel + 1, line_num, ctx, file =>
    match getline ctx.dont_parse line_num file with
    | (_, none) => True
    | (_, some line) => S line ctx ∧
      ∀ text, substDefines env substRounds line.text ctx.defines = .ok text →
        (∀ args ctx1, includeArgs { line with text } ctx = some (args, ctx1) → I args ctx1) ∧
        ∀ ctx', parseLine (inc line.line_num) filename { line with text } ctx = .ok ctx' →
          LinesMeet env inc filename S I fuel line.line_num ctx' line.rest

/-- An `include` that keeps the nodes linked forwards. -/
def KeepsForward (inc : Nat → Bytes → Ctx → Res Ctx) : Prop :=
  ∀ n args ctx ctx', Forward ctx.nodes → inc n args ctx = .ok ctx' → Forward ctx'.nodes

section Lines

variable {env : ConfEnv} {inc inc' : Nat → Bytes → Ctx → Res Ctx} {filename : Bytes}

theorem parseLine_forward (hinc : KeepsForward inc) {n : Nat} {line : Line} (hf : Forward ctx.nodes)
    (h : parseLine (inc n) filename line ctx = .ok ctx') : Forward ctx'.nodes := by
  cases hi : includeArgs line ctx with
  | none => exact ((parseLine_other (inc n) (inc n) filename hi).2 hf).2 ctx' h
  | some p =>
    obtain ⟨args, ctx1⟩ := p
    obtain ⟨heq, hnodes⟩ := parseLine_include (inc n) filename hi
    rw [heq] at h
    exact hinc n args ctx1 ctx' (hnodes ▸ hf) h

theorem parseLines_forward (hinc : KeepsForward inc) {fuel line_num : Nat}
    {r : Ctx × Nat} (hf : Forward ctx.nodes)
    (h : parseLines env rounds inc filename fuel line_num ctx file = .ok r) :
    Forward r.1.nodes := by
  induction fuel generalizing line_num ctx file with
  | zero => cases h
  | succ fuel ih =>
    rw [parseLines] at h
    split at h
    · cases h
      exact hf
    · obtain ⟨text, -, h⟩ := bind_eq_ok.mp h
      obtain ⟨ctx1, h1, h⟩ := bind_eq_ok.mp h
      exact ih (parseLine_forward hinc hf h1) h

/-- The lines of a file end exactly if all of them stop and the files they include end. -/
theorem parseLines_ends_iff {I I' : Bytes → Ctx → Prop} (hr : substRounds ≤ rounds)
    (hkeep : KeepsForward inc) (hinc : ∀ n args ctx, Forward ctx.nodes → I args ctx →
      (inc' n args ctx ≠ Res.hang ↔ I' args ctx) ∧ (I' args ctx → inc n args ctx = inc' n args ctx))
    {fuel line_num : Nat} (hf : Forward ctx.nodes) (hfuel : file.length < fuel)
    (h : LinesMeet env inc filename (fun _ _ => True) I fuel line_num ctx file) :
    parseLines env rounds inc' filename fuel line_num ctx file ≠ Res.hang ↔
      LinesMeet env inc filename (fun line ctx =>
        LineStops env line.text ctx.defines) I' fuel line_num ctx file := by
  induction fuel generalizing line_num ctx file with
  | zero => omega
  | succ fuel ih =>
    rw [LinesMeet] at h ⊢
    rw [parseLines]
    rcases hg : getline ctx.dont_parse line_num file with ⟨k, _ | line⟩
    · exact iff_of_true (ok_ne_hang _) trivial
    rw [hg] at h
    obtain ⟨-, hrest⟩ := h
    obtain ⟨hshort, hlen⟩ := getline_bounds hg
    obtain ⟨hstops, hsubst⟩ := substDefines_ends env hr hlen ctx.defines
    dsimp only
    rw [bind_ne_hang, hstops]
    refine and_congr_right fun hline => ?_
    rw [← hsubst hline]
    refine forall₂_congr fun text htext => ?_
    obtain ⟨hincl, hnext⟩ := hrest text htext
    have hlater : ∀ ctx', parseLine (inc line.line_num) filename { line with text } ctx = .ok ctx' →
        (parseLines env rounds inc' filename fuel line.line_num ctx' line.rest ≠ Res.hang ↔ _) :=
      fun ctx' hctx' => ih (parseLine_forward hkeep hf hctx') (by omega) (hnext ctx' hctx')
    rw [bind_ne_hang]
    cases hi : includeArgs { line with text } ctx with
    | none =>
      obtain ⟨heq, hends⟩ := parseLine_other (inc line.line_num) (inc' line.line_num) filename hi
      rw [← heq]
      exact and_congr (iff_of_true (hends hf).1 (by simp)) (forall₂_congr hlater)
    | some p =>
      obtain ⟨args, ctx1⟩ := p
      obtain ⟨heq, hnodes⟩ := parseLine_include (inc line.line_num) filename hi
      obtain ⟨hiff, hsame⟩ := hinc line.line_num args ctx1 (hnodes ▸ hf) (hincl args ctx1 hi)
      have hI : (∀ args2 ctx2, some (args, ctx1) = some (args2, ctx2) → I' args2 ctx2) ↔ I' args ctx1 :=
        ⟨fun h => h _ _ rfl, fun h _ _ heq => by cases heq; exact h⟩
      rw [(parseLine_include (inc' line.line_num) filename hi).1, hiff, hI]
      refine and_congr_right fun hI => ?_
      rw [← hsame hI, ← heq]
      exact forall₂_congr hlater

theorem parseLines_below (hmn : m ≤ n) (hinc : ∀ k args ctx,
    Below (inc k args ctx) (inc' k args ctx)) (fuel line_num : Nat) (ctx : Ctx) (file : Bytes) :
    Below (parseLines env m inc filename fuel line_num ctx file)
    (parseLines env n inc' filename fuel line_num ctx file) := by
  induction fuel generalizing line_num ctx file with
  | zero => exact Below.refl _
  | succ fuel ih =>
    rw [parseLines, parseLines]
    split
    · exact Below.refl _
    next line _ =>
    refine bind_below (substDefines_below env hmn _ _) fun text => bind_below ?_ fun ctx' => ih _ _ _
    cases hi : includeArgs { line with text } ctx with
    | none =>
      rw [(parseLine_other (inc line.line_num) (inc' line.line_num) filename hi).1]
      exact Below.refl _
    | some p =>
      obtain ⟨args, ctx1⟩ := p
      rw [(parseLine_include (inc line.line_num) filename hi).1,
        (parseLine_include (inc' line.line_num) filename hi).1]
      exact hinc _ _ _

end Lines

/-! ## Files -/

def includedFiles (env : ConfEnv) (args : Bytes) : List Bytes :=
  if env.isPattern args then (env.matching args).getD [] else [args]

section Files

variable {env : ConfEnv} {parse parse' : Bytes → Ctx → Bytes → Res Ctx} {filename args : Bytes}
  {line_num : Nat} {ctx : Ctx}

variable {α : Type} {msg : String} {x : Res α}

theorem rethrowMsg_ne_hang : rethrowMsg msg x ≠ Res.hang ↔ x ≠ Res.hang := by
  unfold rethrowMsg
  split
  · simp [Res.throw, Res.hang]
  · exact Iff.rfl

theorem rethrowMsg_eq_ok {a : α} (h : rethrowMsg msg x = .ok a) : x = .ok a := by
  unfold rethrowMsg at h
  split at h
  · cases h
  · exact h

/-- Of the included files, `include` changes at most the message of an exception. -/
theorem parseInclude_eq (env : ConfEnv) (filename : Bytes) (line_num : Nat) (args : Bytes) :
    ∃ wrap : Res Ctx → Res Ctx, (∀ x, wrap x ≠ Res.hang ↔ x ≠ Res.hang) ∧
    (∀ x ctx, wrap x = .ok ctx → x = .ok ctx) ∧
      ∀ parse ctx, parseInclude env parse filename line_num args ctx =
        wrap (run (includeFile env parse) ctx (includedFiles env args)) := by
  by_cases hp : env.isPattern args
  · cases hm : env.matching args with
    | none =>
      obtain ⟨msg, hmsg⟩ : ∃ msg, ∀ parse ctx, parseInclude env parse filename line_num args ctx =
        Res.throw msg :=
        ⟨_, fun parse ctx => by simp only [parseInclude, hp, hm, if_true]; rfl⟩
      refine ⟨fun x => x >>= fun _ => Res.throw msg, fun x => by simp [bind_ne_hang], fun x ctx h => ?_,
        fun parse ctx => by simp [hmsg, includedFiles, hp, hm]⟩
      obtain ⟨-, -, h⟩ := bind_eq_ok.mp h
      cases h
    | some names =>
      refine ⟨rethrowMsg ("Couldn't process 'include' directive" ++ atLine filename line_num),
        fun x => rethrowMsg_ne_hang, fun x ctx => rethrowMsg_eq_ok, fun parse ctx => ?_⟩
      simp only [parseInclude, includedFiles, hp, hm, if_true, Option.getD_some]
  · cases ho : env.open_ args with
    | none =>
      refine ⟨rethrowMsg ("Invalid 'include' directive" ++ atLine filename line_num), fun x =>
        rethrowMsg_ne_hang,
        fun x ctx => rethrowMsg_eq_ok, fun parse ctx => ?_⟩
      have hrun : run (includeFile env parse) ctx [args] =
        Res.throw ("Failed to open config file " ++ shown args) := by
        rw [run_cons, includeFile, ho]
        rfl
      have htext : "; Invalid 'include' directive" = "; " ++ "Invalid 'include' directive" := rfl
      simp [parseInclude, includedFiles, hp, ho, hrun, rethrowMsg, htext, Res.throw,
        String.append_assoc, -String.reduceAppend]
    | some text =>
      refine ⟨id, fun x => Iff.rfl, fun x ctx h => h, fun parse ctx => ?_⟩
      simp [parseInclude, includedFiles, hp, ho, run_cons, bind_ok]

theorem includeFile_below (h : ∀ name ctx file, Below (parse name ctx file) (parse' name ctx file)) (ctx : Ctx)
    (name : Bytes) : Below (includeFile env parse ctx name) (includeFile env parse' ctx name) := by
  rw [includeFile, includeFile]
  split
  · exact Below.refl _
  · exact bind_below (h _ _ _) fun _ => Below.refl _

theorem parseInclude_below (h : ∀ name ctx file, Below (parse name ctx file) (parse' name ctx file))
    (line_num : Nat)
    (args : Bytes) (ctx : Ctx) :
    Below (parseInclude env parse filename line_num args ctx)
    (parseInclude env parse' filename line_num args ctx) := by
  obtain ⟨wrap, hhang, -, heq⟩ := parseInclude_eq env filename line_num args
  intro hne
  rw [heq, hhang] at hne
  rw [heq, heq, run_below (includeFile_below h) _ _ hne]

/-- A parser of files that keeps the nodes linked forwards. -/
def ParsesForward (parse : Bytes → Ctx → Bytes → Res Ctx) : Prop :=
  ∀ name ctx file ctx', Forward ctx.nodes → parse name ctx file = .ok ctx' → Forward ctx'.nodes

theorem includeFile_forward (h : ParsesForward parse) {name : Bytes} {ctx' : Ctx} (hf : Forward ctx.nodes)
    (hi : includeFile env parse ctx name = .ok ctx') : Forward ctx'.nodes := by
  rw [includeFile] at hi
  split at hi
  · cases hi
  · obtain ⟨ctx1, h1, hi⟩ := bind_eq_ok.mp hi
    cases hi
    exact h _ { ctx with levels := [], dont_parse := false } _ ctx1 hf h1

theorem parseInclude_forward (h : ParsesForward parse) : KeepsForward (parseInclude env parse filename) := by
  intro n args ctx ctx' hf hi
  obtain ⟨wrap, -, hok, heq⟩ := parseInclude_eq env filename n args
  rw [heq] at hi
  refine run_keeps (P := fun ctx => Forward ctx.nodes) ?_ hf (hok _ _ hi)
  intro ctx name ctx' hf hi
  exact includeFile_forward h hf hi

end Files

theorem atEnd_ne_hang (filename : Bytes) (ctx : Ctx) (line_num : Nat) :
    atEnd filename ctx line_num ≠ Res.hang := by
  rw [atEnd]
  split
  · exact ok_ne_hang _
  · exact bind_ne_hang.mpr ⟨(nodeAt_ends _ _).1, fun node _ => throw_ne_hang _⟩

theorem atEnd_ok {line_num : Nat} (h : atEnd filename ctx line_num = .ok ctx') : ctx' = ctx := by
  rw [atEnd] at h
  split at h
  · cases h; rfl
  · obtain ⟨node, -, h⟩ := bind_eq_ok.mp h
    cases h

theorem cfgParse_forward (env : ConfEnv) (rounds depth : Nat) : ParsesForward (cfgParse env rounds depth) := by
  induction depth with
  | zero => intro name ctx file ctx' _ h; cases h
  | succ depth ih =>
    intro name ctx file ctx' hf h
    obtain ⟨r, hr, h⟩ := bind_eq_ok.mp h
    rw [atEnd_ok h]
    exact parseLines_forward (parseInclude_forward ih) hf hr

theorem cfgParse_below (env : ConfEnv) (hmn : m ≤ n) {d e : Nat} (hde : d ≤ e) (filename : Bytes) (ctx : Ctx)
    (file : Bytes) : Below (cfgParse env m d filename ctx file) (cfgParse env n e filename ctx file) := by
  induction d generalizing e filename ctx file with
  | zero => exact below_of_hang rfl
  | succ d ih =>
    obtain ⟨e, rfl⟩ : ∃ k, e = k + 1 := ⟨e - 1, by omega⟩
    refine bind_below ?_ fun r => Below.refl _
    exact parseLines_below hmn (parseInclude_below fun name ctx file => ih (by omega) name ctx file) _ _ _ _

/-- `S` at every line that is read, in the file and in those that it includes; `I` between a file
and each of these. -/
def FileMeets (env : ConfEnv) (S : Line → Ctx → Prop) (I : Bytes → Bytes → Prop) : Nat → Bytes →
    Ctx → Bytes → Prop
  | 0, _, _, _ => True
  | depth + 1, filename, ctx, file =>
    LinesMeet env (parseInclude env (cfgParse env substRounds depth) filename) filename S
      (fun args ctx => Meets (includeFile env (cfgParse env substRounds depth))
        (fun ctx name => I filename name ∧ ∀ file, env.open_ name = some file →
          FileMeets env S I depth name { ctx with levels := [], dont_parse := false } file)
        ctx (includedFiles env args))
      (file.length + 1) 0 ctx file

section Parse

variable {env : ConfEnv} {rank : Bytes → Nat}

theorem cfgParse_ends_iff {depth d : Nat} (hr : substRounds ≤ rounds) (hd : depth ≤ d)
    (hf : Forward ctx.nodes) (hdepth : rank filename < depth)
    (h : FileMeets env (fun _ _ => True) (fun f g => rank g < rank f) depth filename ctx file) :
    cfgParse env rounds d filename ctx file ≠ Res.hang ↔
      FileMeets env (fun line ctx => LineStops env line.text ctx.defines) (fun f g =>
        rank g < rank f) depth filename
        ctx file := by
  induction depth generalizing rounds d filename ctx file with
  | zero => omega
  | succ depth ih =>
    obtain ⟨d, rfl⟩ : ∃ k, d = k + 1 := ⟨d - 1, by omega⟩
    have hforward := cfgParse_forward env substRounds depth
    rw [cfgParse, bind_ne_hang, and_iff_left fun r _ => atEnd_ne_hang _ _ _]
    refine parseLines_ends_iff hr (parseInclude_forward hforward) ?_ hf (Nat.lt_succ_self _) h
    intro n args ctx1 hf1 hmeets
    obtain ⟨wrap, hhang, -, heq⟩ := parseInclude_eq env filename n args
    rw [heq, heq, hhang]
    refine (run_ends_iff (fun ctx => Forward ctx.nodes) ?_
      (fun ctx name ctx' hf hi => includeFile_forward hforward hf hi) hf1 hmeets).imp_right
        fun hsame hmeets => congrArg wrap (hsame hmeets)
    intro ctx name hf ⟨hrank, hfile⟩
    cases hopen : env.open_ name with
    | none => simp [includeFile, hopen, hrank]
    | some text =>
      have hf2 : Forward ({ ctx with levels := [], dont_parse := false } : Ctx).nodes := hf
      have hends := ih hr (Nat.le_of_succ_le_succ hd) hf2 (by omega) (hfile text hopen)
      -- a file that ends is ranked, so it ends within the depth as well
      have hwithin := ih (Nat.le_refl _) (Nat.le_refl _) hf2 (by omega) (hfile text hopen)
      refine ⟨?_, fun hB => ?_⟩
      · simp [includeFile, hopen, bind_ne_hang, hends, hrank]
      · have hbelow := cfgParse_below env hr (Nat.le_of_succ_le_succ hd) name _ text
          (hwithin.mpr (hB.2 text rfl))
        simp only [includeFile, hopen, hbelow]

end Parse

/-! ## Both together -/

/-- Every file that is included has a lower rank than the file that includes it. -/
def Ranked (env : ConfEnv) (rank : Bytes → Nat) (filename text : Bytes) : Prop :=
  FileMeets env (fun _ _ => True) (fun f g => rank g < rank f) (rank filename + 1) filename Ctx.start text

/-- In every line that is read, all defines stop. -/
def AllStop (env : ConfEnv) (rank : Bytes → Nat) (filename text : Bytes) : Prop :=
  FileMeets env (fun line ctx => LineStops env line.text ctx.defines) (fun f g => rank g < rank f)
  (rank filename + 1)
    filename Ctx.start text

theorem start_forward : Forward Ctx.start.nodes := by
  refine ⟨by simp [Ctx.start], ?_⟩
  intro k node j hk hj
  cases k with
  | zero => cases hk; cases hj
  | succ k => cases hk

/-- A line ends exactly if each define of it stops; and files that can be ranked are parsed to an
end exactly if all their lines are. -/
theorem conf_terminates_iff (env : ConfEnv) :
    (∀ buf defines, buf.length < maxStringLen →
      ((∃ rounds, substDefines env rounds buf defines ≠ Res.hang) ↔ LineStops env buf defines)) ∧
    ∀ rank filename text, Ranked env rank filename text →
      ((∃ rounds depth, cfgParse env rounds depth filename Ctx.start text ≠ Res.hang) ↔
        AllStop env rank filename text) := by
  refine ⟨fun buf defines hlen => ⟨fun ⟨rounds, hend⟩ => ?_, fun hstop => ?_⟩,
    fun rank filename text hranked =>
    ⟨fun ⟨rounds, depth, hend⟩ => ?_, fun hstop => ?_⟩⟩
  · refine (substDefines_ends env (Nat.le_max_right rounds substRounds) hlen defines).1.mp ?_
    rwa [substDefines_below env (Nat.le_max_left rounds substRounds) buf defines hend]
  · exact ⟨substRounds, (substDefines_ends env (Nat.le_refl _) hlen defines).1.mpr hstop⟩
  · refine (cfgParse_ends_iff (Nat.le_max_right rounds substRounds)
      (Nat.le_max_right depth _) start_forward (Nat.lt_succ_self _) hranked).mp ?_
    rwa [cfgParse_below env (Nat.le_max_left rounds substRounds) (Nat.le_max_left depth _) _ _ _ hend]
  · exact ⟨substRounds, rank filename + 1, (cfgParse_ends_iff (Nat.le_refl _) (Nat.le_refl _) start_forward
      (Nat.lt_succ_self _) hranked).mpr hstop⟩

/-! A define, and a line with its variable. -/

def definedText : Bytes := ascii "define A b\nx %A%\n"

def defineLine : Line := ⟨ascii "define A b", 0, 1, ascii "x %A%\n"⟩

def definedLine : Line := ⟨ascii "x %A%", 0, 2, []⟩

def defineLabel : Label := ⟨ascii "A", ascii "b", 7, [], 1⟩

theorem definedLine_subst : substDefines noFiles substRounds definedLine.text [defineLabel] =
    .ok (ascii "x b") := by
  have hround : substDefine noFiles defineLabel (maxStringLen + 1) [] (ascii "x %A%") =
      substDefine noFiles defineLabel maxStringLen (ascii "x ") (ascii "b") := by
    rw [substDefine_round (i := 2) (by decide) (by decide)]
    rfl
  have hdone : substDefine noFiles defineLabel maxStringLen (ascii "x ") (ascii "b") = .ok (ascii "x b") :=
    substDefine_none (by decide)
  rw [substDefines, run_cons, substStep, if_pos (by decide), definedLine, substRounds, hround, hdone]
  rfl

theorem definedText_meets {S : Line → Ctx → Prop} {I : Bytes → Bytes → Prop}
    (h1 : S defineLine Ctx.start) (h2 : S definedLine { Ctx.start with defines := [defineLabel] }) :
    FileMeets noFiles S I 1 [] Ctx.start definedText := by
  have hg1 : getline Ctx.start.dont_parse 0 definedText = (1, some defineLine) := rfl
  have hg2 : getline false 1 (ascii "x %A%\n") = (2, some definedLine) := rfl
  have hlen : definedText.length = 15 + 1 + 1 := rfl
  rw [FileMeets, hlen, LinesMeet, hg1]
  refine ⟨h1, fun text htext => ?_⟩
  obtain rfl : defineLine.text = text := Except.ok.inj htext
  refine ⟨fun args ctx1 h => ?_, fun ctx' hctx' => ?_⟩
  · cases h
  obtain rfl : { Ctx.start with defines := [defineLabel] } = ctx' := Except.ok.inj hctx'
  rw [LinesMeet]
  simp only [Ctx.start, defineLine]
  rw [hg2]
  refine ⟨h2, fun text htext => ?_⟩
  obtain rfl : ascii "x b" = text := Except.ok.inj (definedLine_subst.symm.trans htext)
  refine ⟨fun args ctx1 h => ?_, fun ctx' hctx' => ?_⟩
  · cases h
  rw [LinesMeet]
  cases hctx'
  trivial

theorem conf_terminates_define : Ranked noFiles (fun _ => 0) [] definedText ∧
    ∃ rounds depth, cfgParse noFiles rounds depth [] Ctx.start definedText ≠ Res.hang := by
  have hranked : Ranked noFiles (fun _ => 0) [] definedText := definedText_meets trivial trivial
  have hstop : AllStop noFiles (fun _ => 0) [] definedText :=
    definedText_meets trivial ⟨.inr (by decide), fun _ _ => trivial⟩
  exact ⟨hranked, ((conf_terminates_iff noFiles).2 _ _ _ hranked).mpr hstop⟩

/-- A define whose text is its own variable, and a file that includes itself. -/
def selfDefined : Bytes := ascii "define A %A%\nx %A%\n"

def selfLabel : Label := ⟨ascii "A", ascii "%A%", 7, [], 1⟩

def selfIncluded : Bytes := ascii "include F\n"

def selfFiles : ConfEnv := ⟨false, fun _ => some selfIncluded, fun _ => false, fun _ => none⟩

/-- With any number of rounds, and of files one in another, the parser is not done. -/
theorem conf_hangs :
    (∀ rounds depth, cfgParse noFiles rounds depth [] Ctx.start selfDefined = Res.hang) ∧
    ∀ rounds depth, cfgParse selfFiles rounds depth (ascii "F") Ctx.start selfIncluded = Res.hang := by
  constructor
  · intro rounds depth
    cases depth with
    | zero => rfl
    | succ depth =>
      have hg1 : getline Ctx.start.dont_parse 0 selfDefined =
        (1, some ⟨ascii "define A %A%", 0, 1, ascii "x %A%\n"⟩) := rfl
      have hg2 : getline false 1 (ascii "x %A%\n") = (2, some ⟨ascii "x %A%", 0, 2, []⟩) := rfl
      have hlen : selfDefined.length = 17 + 1 + 1 := rfl
      have hdefine : ∀ inc, parseLine inc [] ⟨ascii "define A %A%", 0, 1,
          ascii "x %A%\n"⟩ Ctx.start = .ok { Ctx.start with defines := [selfLabel] } := fun _ => rfl
      have hline : substDefine noFiles selfLabel rounds [] (ascii "x %A%") = Res.hang :=
        substDefine_hangs (i := 2) (by decide) rounds (by decide) (by decide)
      have hsubst : substDefines noFiles rounds (ascii "x %A%") [selfLabel] = Res.hang := by
        rw [substDefines, run_cons, substStep, if_pos (by decide), hline]
        rfl
      rw [cfgParse, hlen, parseLines, hg1]
      dsimp only
      have hstart : substDefines noFiles rounds (ascii "define A %A%") Ctx.start.defines =
        .ok (ascii "define A %A%") := rfl
      rw [hstart, ok_bind, hdefine, ok_bind, parseLines]
      simp only [Ctx.start]
      rw [hg2]
      dsimp only
      rw [hsubst]
      rfl
  · intro rounds depth
    induction depth with
    | zero => rfl
    | succ depth ih =>
      have hg : getline Ctx.start.dont_parse 0 selfIncluded = (1, some ⟨ascii "include F", 0, 1, []⟩) := rfl
      have hstart : substDefines selfFiles rounds (ascii "include F") Ctx.start.defines =
        .ok (ascii "include F") := rfl
      have hargs : includeArgs ⟨ascii "include F", 0, 1, []⟩ Ctx.start = some (ascii "F", Ctx.start) := rfl
      rw [cfgParse, parseLines, hg]
      dsimp only
      rw [hstart, ok_bind, (parseLine_include _ _ hargs).1]
      have hinc : parseInclude selfFiles (cfgParse selfFiles rounds depth) (ascii "F") 1
        (ascii "F") Ctx.start =
          (cfgParse selfFiles rounds depth (ascii "F") Ctx.start selfIncluded >>= fun inc =>
            .ok { inc with levels := Ctx.start.levels, dont_parse := Ctx.start.dont_parse }) := rfl
      rw [hinc, ih]
      rfl

end Nxlog.L4.Conf
