import Nxlog.L4App.Conf
import Nxlog.L4App.Progress

/-!
# Routes from their paths (`core/router.c`)

`nx_add_route` takes the path of a Route block apart at commas and arrows, looks up a module for
each piece and appends it to the array of the route. It wants an arrow somewhere, an input and an
output, but does not look at where they are: the manual asks for inputs, then processors, then
outputs.

A failed call may leave its route with the modules that were added: their `routes` keep it. All
routes that were made are in `Ctx.created`, those that were accepted in `Ctx.routes`.

* `addRoute`: the function; `parsePath` is its loop.
* `segments`, `named`: the pieces of a path, and the modules they name.
* `addRoute_grown`: an accepted route has exactly these modules.
* `accepted_routes_safe_iff`: then all modules still run without a failed `ASSERT` exactly if they
  did before and these modules are in order.
-/
namespace Nxlog.L4.Router
open L1 L2 L3 Res List
open L4.Conf (caseEq shown atLine)

/-! ## Modules and routes -/

/-- `nx_directive_t`, as far as it is read here. -/
structure Directive where
  directive : CStr
  args : CStr
  filename : CStr
  line_num : Nat

/-- `nx_route_t`. -/
structure Route where
  name : CStr
  priority : Int
  modules : List Nat

/-- What `nx_module_t` has for the router; routes are numbers of `Ctx.created`. -/
structure Declared where
  name : CStr
  type : ModuleType
  has_config_errors : Bool
  routes : List Nat
  priority : Int
  refcount : Int

structure Ctx where
  modules : List Declared
  ignoreerrors : Bool
  created : List Route
  routes : List Nat

/-- The message of `nx_conf_error`, cut to `NX_LOGBUF_SIZE`. -/
def confError (conf : Directive) (msg : String) : String :=
  String.ofList (msg.toList.take 1023) ++ atLine conf.filename.1 conf.line_num

variable (ctx : Ctx)

def Ctx.find (name : Bytes) : Option Nat :=
  (ctx.modules.map Declared.name).findIdx? fun n => caseEq n.1 name

def Declared.join (m : Declared) (r : Nat) (priority : Int) : Declared :=
  { m with
    routes := m.routes ++ [r]
    priority := if m.priority = 0 then priority else if priority < m.priority then priority else m.priority
    refcount := m.refcount + 1 }

def Route.add (route : Route) (i : Nat) : Route := { route with modules := route.modules ++ [i] }

/-- core/router.c:128-139: module `i`, which is `m`, joins the route `r`. -/
def Ctx.join (ctx : Ctx) (r : Nat) (priority : Int) (i : Nat) (m : Declared) : Ctx :=
  { ctx with
    modules := ctx.modules.set i (m.join r priority)
    created := ctx.created.modify r fun route => route.add i }

/-! ## Paths -/

/-- White space in front, but not the last byte. -/
def trimLead : Bytes → Bytes
  | c :: d :: rest => if isSpace c then trimLead (d :: rest) else c :: d :: rest
  | text => text

def modname (text : Bytes) : Bytes := (trimLead (trimLead text).reverse).reverse

structure Adding where
  conf : Directive
  r : Nat
  name : CStr
  priority : Int

/-- An error that is only logged if errors are to be ignored. -/
def refuse (conf : Directive) (msg : String) : Res (Ctx × Option String) :=
  if ctx.ignoreerrors then .ok (ctx, none) else .ok (ctx, some (confError conf msg))

/-- mirrors core/router.c:22-140 (`nx_route_add_module`) for the text between two separators, in
front of `rest`: the modules, and the message if an exception is thrown. -/
def addModule (add : Adding) (ctx : Ctx) (text rest : Bytes) : Res (Ctx × Option String) := do
  let name := modname text
  Res.assert (name ≠ []) "start < end"
  if 128 ≤ name.length + 1 then
    return (ctx, some (confError add.conf ("module name too long: " ++ shown (trimLead text ++ rest))))
  else
    match ctx.find name with
    | none => refuse ctx add.conf ("module '" ++ shown name ++ "' not declared")
    | some i =>
      match ctx.modules[i]? with
      | none => Res.fault
      | some m =>
        if m.has_config_errors then refuse ctx add.conf ("module '" ++ shown name ++
          "' has configuration errors")
        else if m.type = .processor ∧ 1 ≤ m.routes.length then
          refuse ctx add.conf ("cannot add processor module '" ++ shown name ++ "' to route '" ++
            shown add.name.1 ++
            "' because it is already added to route '" ++
            shown (((m.routes.head?.bind (ctx.created[·]?)).map (·.name.1)).getD []) ++
            "', you should define another instance")
        else return (ctx.join add.r add.priority i m, none)

/-- core/router.c:276-285. -/
def endSegment (add : Adding) (path : Bytes) (ctx : Ctx) (text rest : Bytes) : Res (Ctx × Option String) :=
  if text = [] then .ok (ctx, some (confError add.conf ("invalid leading comma/arrow in path " ++ shown path)))
  else if text.length ≤ 1 then .ok (ctx, some (confError add.conf ("invalid path " ++ shown path)))
  else addModule add ctx text rest

/-- What comes behind a separator, unless an exception was thrown or nothing is left. -/
def goOn (add : Adding) (msg : String) (rest : Bytes) (parse : Ctx → Res (Ctx × Option String)) :
    Ctx × Option String → Res (Ctx × Option String)
  | (ctx, some e) => .ok (ctx, some e)
  | (ctx, none) => if rest = [] then .ok (ctx, some (confError add.conf msg)) else parse ctx

/-- mirrors core/router.c:268-314, the loop of `nx_add_route`: `text` is what has been read since
the last separator. -/
def parsePath (add : Adding) (path : Bytes) : Bytes → Bytes → Ctx → Res (Ctx × Option String)
  | text, [], ctx => endSegment add path ctx text []
  | text, c :: rest, ctx =>
    if isSpace c then parsePath add path (text ++ [c]) rest ctx
    else if c = 44 then
      endSegment add path ctx text (c :: rest) >>=
        goOn add ("invalid comma/arrow in path " ++ shown path) rest (parsePath add path [] rest)
    else
      match rest with
      | [] => parsePath add path (text ++ [c]) [] ctx
      | d :: rest =>
        if c = 61 ∧ d = 62 then
          endSegment add path ctx text (c :: d :: rest) >>=
            goOn add ("invalid arrow in path " ++ shown path) rest (parsePath add path [] rest)
        else parsePath add path (text ++ [c]) (d :: rest) ctx

def countArrows : Bytes → Nat
  | c :: d :: rest => (if c = 61 ∧ d = 62 then 1 else 0) + countArrows (d :: rest)
  | _ => 0

/-! ## Route blocks -/

def pathKey : CStr := lit "path"

def priorityKey : CStr := lit "priority"

/-- mirrors common/confparser.c:775-792 (`nx_cfg_get_value`). -/
def cfgGetValue (conf : List Directive) (key : CStr) : Option CStr :=
  (conf.find? fun d => decide (strcasecmp d.directive key)).map Directive.args

/-- core/router.c:219-239: the priority, with `atoi` of the C library. -/
def priorityOf (atoi : Bytes → Int) (priority : Int) : List Directive → Res Int
  | [] => .ok priority
  | d :: rest =>
    if strcasecmp d.directive pathKey then priorityOf atoi priority rest
    else if strcasecmp d.directive priorityKey then
      let priority := atoi d.args.1
      if priority < 1 ∨ 100 < priority then Res.throw (confError d ("invalid priority: " ++ toString priority))
      else priorityOf atoi (priority + 10) rest
    else Res.throw (confError d ("invalid keyword under <Route>: " ++ shown d.directive.1))

def Ctx.arrayOf (r : Nat) : List Nat := (ctx.created[r]?.map Route.modules).getD []

def Ctx.typeOf (i : Nat) : ModuleType := (ctx.modules[i]?.map Declared.type).getD .extension

def release (modules : List Declared) (i : Nat) : List Declared :=
  modules.modify i fun m => { m with refcount := m.refcount - 1 }

/-- mirrors core/router.c:148-160 (`nx_route_remove_modules`). -/
def Ctx.removeModules (r : Nat) : Ctx :=
  { ctx with modules := (ctx.arrayOf r).foldl release ctx.modules }

/-- core/router.c:330-371: what becomes of the route once its path has been read. -/
def acceptRoute (add : Adding) (ctx : Ctx) : Res (Ctx × Bool) :=
  let missing := fun kind =>
  confError add.conf ("route " ++ shown add.name.1 ++ " is not functional without " ++ kind ++
    " modules, ignored")
  if (ctx.arrayOf add.r).all fun i => ctx.typeOf i ≠ .input then
    if ctx.ignoreerrors then .ok (ctx.removeModules add.r, false) else Res.throw (missing "input")
  else if (ctx.arrayOf add.r).all fun i => ctx.typeOf i ≠ .output then
    if ctx.ignoreerrors then .ok (ctx.removeModules add.r, false) else Res.throw (missing "output")
  else .ok ({ ctx with routes := ctx.routes ++ [add.r] }, true)

/-- core/router.c:316-328. -/
def finishRoute (add : Adding) : Ctx × Option String → Res (Ctx × Bool)
  | (ctx, some msg) => if ctx.ignoreerrors then .ok (ctx, false) else Res.throw msg
  | (ctx, none) => acceptRoute add ctx

/-- mirrors core/router.c:194-372 (`nx_add_route`) for the block `routeconf` with `children` in it:
the modules and routes afterwards, and whether the route was accepted. -/
def addRoute (atoi : Bytes → Int) (ctx : Ctx) (routeconf : Directive) (children : List Directive)
    (routename : CStr) :
    Res (Ctx × Bool) :=
  match children.head?, cfgGetValue children pathKey with
  | some conf, some path => do
    let priority ← priorityOf atoi 10 children
    if countArrows path.1 = 0 then Res.throw (confError conf "invalid path")
    else do
      let add : Adding := ⟨conf, ctx.created.length, routename, priority⟩
      let ctx := { ctx with created := ctx.created ++ [⟨routename, priority, []⟩] }
      let r ← parsePath add path.1 [] path.1 ctx
      finishRoute add r
  | _, _ => Res.throw (confError routeconf ("path missing from route '" ++ shown routename.1 ++ "'"))

structure Block where
  conf : Directive
  children : List Directive

def routeKey : CStr := lit "route"

/-- mirrors core/router.c:376-398 (`nx_ctx_init_routes`), one block of it. -/
def addBlock (atoi : Bytes → Int) (ctx : Ctx) (block : Block) : Res Ctx :=
  if strcasecmp block.conf.directive routeKey then do
    let (ctx, _) ← addRoute atoi ctx block.conf block.children block.conf.args
    return ctx
  else return ctx

/-! ## What a path says -/

def segments : Bytes → Bytes → List Bytes
  | text, [] => [text]
  | text, c :: rest =>
    if isSpace c then segments (text ++ [c]) rest
    else if c = 44 then text :: segments [] rest
    else
      match rest with
      | [] => segments (text ++ [c]) []
      | d :: rest =>
        if c = 61 ∧ d = 62 then text :: segments [] rest else segments (text ++ [c]) (d :: rest)

def Ctx.routesOf (i : Nat) : List Nat := (ctx.modules[i]?.map Declared.routes).getD []

/-- A module may be named if it is declared and has no errors; a processor only if it has no
route. -/
def Ctx.takes (taken : List Nat) (name : Bytes) : Option Nat :=
  (ctx.find name).bind fun i => ctx.modules[i]?.bind fun m =>
    if m.has_config_errors ∨ (m.type = .processor ∧ (m.routes ≠ [] ∨ i ∈ taken)) then none else some i

/-- The modules that the texts name, behind those that have been named already. -/
def Ctx.named (ctx : Ctx) (taken : List Nat) : List Bytes → List Nat
  | [] => taken
  | text :: rest => ctx.named (taken ++ (ctx.takes taken (modname text)).toList) rest

/-- What no route changes. -/
def Declared.static (m : Declared) : CStr × ModuleType × Bool := (m.name, m.type, m.has_config_errors)

/-- `ctx'` is `ctx` with one more route, of the modules `taken`. -/
structure Grown (ctx : Ctx) (name : CStr) (priority : Int) (taken : List Nat) (ctx' : Ctx) : Prop where
  created : ctx'.created = ctx.created ++ [⟨name, priority, taken⟩]
  static : ctx'.modules.map Declared.static = ctx.modules.map Declared.static
  routesOf : ∀ i, ctx'.routesOf i = ctx.routesOf i ++ List.replicate (taken.count i) ctx.created.length
  declared : ∀ i ∈ taken, i < ctx.modules.length
  fresh : ∀ i ∈ taken, ctx.typeOf i = .processor → ctx.routesOf i = [] ∧ taken.count i = 1
  ignoreerrors : ctx'.ignoreerrors = ctx.ignoreerrors

/-- Unless an exception was thrown, the new route has the modules `taken`. -/
abbrev GrownTo (add : Adding) (taken : List Nat) (ctx' : Ctx) (e : Option String) : Prop :=
  ∃ taken', Grown ctx add.name add.priority taken' ctx' ∧ (e = none → taken' = taken)

variable {e : Option String} {ctx'' : Ctx}

section Growing

variable {ctx ctx' : Ctx} {name : CStr} {priority : Int} {taken : List Nat}

theorem static_getElem? (h : ctx'.modules.map Declared.static = ctx.modules.map Declared.static)
    (i : Nat) : ctx'.modules[i]?.map Declared.static = ctx.modules[i]?.map Declared.static := by
  simpa using congrArg (·[i]?) h

theorem typeOf_of_static (h : ctx'.modules.map Declared.static = ctx.modules.map Declared.static)
    (i : Nat) : ctx'.typeOf i = ctx.typeOf i := by
  have := congrArg (fun m => (m.map fun s : CStr × ModuleType × Bool => s.2.1).getD .extension)
    (static_getElem? h i)
  simpa [Ctx.typeOf, Declared.static, Function.comp_def] using this

section Grown

variable (h : Grown ctx name priority taken ctx')
include h

theorem Grown.find (n : Bytes) : ctx'.find n = ctx.find n := by
  have hnames : ctx'.modules.map Declared.name = ctx.modules.map Declared.name := by
    simpa [Declared.static, Function.comp_def] using congrArg (map Prod.fst) h.static
  rw [Ctx.find, Ctx.find, hnames]

theorem Grown.join {i : Nat} {m : Declared} (hm : ctx'.modules[i]? = some m)
    (hproc : m.type = .processor → m.routes = []) :
    Grown ctx name priority (taken ++ [i]) (ctx'.join ctx.created.length priority i m) := by
  have hlt : i < ctx'.modules.length := (List.getElem?_eq_some_iff.mp hm).1
  have hlen : ctx'.modules.length = ctx.modules.length := by simpa using congrArg List.length h.static
  have htype : ctx.typeOf i = m.type := by
    rw [← typeOf_of_static h.static, Ctx.typeOf, hm]
    rfl
  have hroutes : ctx'.routesOf i = m.routes := by
    rw [Ctx.routesOf, hm]
    rfl
  refine ⟨?_, ?_, ?_, ?_, ?_, h.ignoreerrors⟩
  · show ctx'.created.modify _ _ = _
    rw [h.created, List.modify_eq_set_getElem?]
    simp [Route.add]
  · show (ctx'.modules.set i (m.join _ _)).map _ = _
    rw [← h.static]
    apply List.ext_getElem?
    intro j
    rw [List.getElem?_map, List.getElem?_set, List.getElem?_map]
    split
    · next hij =>
      rw [← hij, hm]
      rfl
    · rfl
  · intro j
    show ((ctx'.modules.set i (m.join _ _))[j]?.map Declared.routes).getD [] = _
    rw [List.getElem?_set]
    split
    · next hij =>
      subst hij
      simp [Declared.join, ← hroutes, h.routesOf i, List.replicate_succ']
    · next hij =>
      rw [List.count_append, List.count_singleton, if_neg (by simpa using hij), Nat.add_zero, ← h.routesOf j]
      rfl
  · exact forall_mem_append.mpr ⟨h.declared, forall_mem_singleton.mpr (by omega)⟩
  · intro j hj hjproc
    have hnew : i = j → ctx.routesOf i = [] ∧ taken.count i = 0 := by
      rintro rfl
      have hnone := h.routesOf i
      rw [hroutes, hproc (htype ▸ hjproc)] at hnone
      simpa using hnone.symm
    by_cases hij : i = j
    · subst hij
      simpa using hnew rfl
    · have hjt : j ∈ taken := by simpa [Ne.symm hij] using hj
      simpa [hij] using h.fresh j hjt hjproc

theorem Grown.of_modules (hcreated : ctx''.created = ctx'.created)
    (hkept : ctx''.modules.map (fun m => (m.static, m.routes)) = ctx'.modules.map (fun m =>
      (m.static, m.routes)))
    (hignore : ctx''.ignoreerrors = ctx'.ignoreerrors) : Grown ctx name priority taken ctx'' := by
  refine ⟨hcreated.trans h.created, ?_, fun i => ?_, h.declared, h.fresh, hignore.trans h.ignoreerrors⟩
  · rw [← h.static]
    simpa [Function.comp_def] using congrArg (map Prod.fst) hkept
  · rw [← h.routesOf i]
    have := congrArg (fun l => (l[i]?.map Prod.snd).getD []) hkept
    simpa [Ctx.routesOf, Function.comp_def] using this

theorem Grown.arrayOf_new : ctx'.arrayOf ctx.created.length = taken := by
  simp [Ctx.arrayOf, h.created]

theorem Grown.arrayOf_of_ne {r : Nat} (hr : r ≠ ctx.created.length) :
    ctx'.arrayOf r = ctx.arrayOf r := by
  unfold Ctx.arrayOf
  rw [h.created]
  by_cases hlt : r < ctx.created.length
  · rw [getElem?_append_left hlt]
  have h1 : (ctx.created ++ [⟨name, priority, taken⟩])[r]? = none := by
    rw [getElem?_eq_none_iff]
    simp
    omega
  have h2 : ctx.created[r]? = none := getElem?_eq_none_iff.mpr (by omega)
  rw [h1, h2]

theorem Grown.mem_routesOf {i r : Nat} :
    r ∈ ctx'.routesOf i ↔ r ∈ ctx.routesOf i ∨ i ∈ taken ∧ r = ctx.created.length := by
  rw [h.routesOf, mem_append, mem_replicate]
  simp [count_eq_zero]

end Grown

variable {add : Adding} (h : Grown ctx add.name add.priority taken ctx') (hr : add.r = ctx.created.length)
include h hr

/-- A text that was looked up: the module it names has joined the route. -/
theorem addModule_grown {text rest : Bytes} (hadd : addModule add ctx' text rest = .ok (ctx'', e)) :
    GrownTo ctx add (taken ++ (ctx.takes taken (modname text)).toList) ctx'' e := by
  have hrefuse : ∀ {msg : String}, ctx.takes taken (modname text) = none →
      refuse ctx' add.conf msg = .ok (ctx'', e) →
      GrownTo ctx add (taken ++ (ctx.takes taken (modname text)).toList) ctx'' e := by
    intro msg hnone hok
    have hsame : ctx' = ctx'' := by
      unfold refuse at hok
      split at hok <;> cases hok <;> rfl
    exact ⟨taken, hsame ▸ h, fun _ => by simp [hnone]⟩
  obtain ⟨-, -, hadd⟩ := bind_eq_ok.mp hadd
  split at hadd
  · cases hadd
    exact ⟨taken, h, by simp⟩
  rw [h.find] at hadd
  split at hadd
  · next hfind => exact hrefuse (by simp [Ctx.takes, hfind]) hadd
  next i hfind =>
  split at hadd
  · cases hadd
  next m hm =>
  -- what `takes` looks at has not changed
  have hstatic := static_getElem? h.static i
  rw [hm] at hstatic
  obtain ⟨m0, hm0, hs⟩ : ∃ m0, ctx.modules[i]? = some m0 ∧ m0.static = m.static := by
    simpa using hstatic.symm
  have hroutes : m.routes = m0.routes ++ replicate (taken.count i) ctx.created.length := by
    simpa [Ctx.routesOf, hm, hm0] using h.routesOf i
  have herr : m0.has_config_errors = m.has_config_errors := congrArg (·.2.2) hs
  have htype : m0.type = m.type := congrArg (·.2.1) hs
  have htakes : ctx.takes taken (modname text) =
      if m.has_config_errors ∨ (m.type = .processor ∧ (m0.routes ≠ [] ∨ i ∈ taken)) then none else some i := by
    simp [Ctx.takes, hfind, hm0, herr, htype]
  have hnil : m.routes ≠ [] ↔ m0.routes ≠ [] ∨ i ∈ taken := by
    rw [hroutes, ne_eq, append_eq_nil_iff, replicate_eq_nil_iff, count_eq_zero]
    tauto
  split at hadd
  · next hce => exact hrefuse (by simp [htakes, hce]) hadd
  next hce =>
  split at hadd
  · next hp =>
    have hne : m.routes ≠ [] := length_pos_iff.mp hp.2
    refine hrefuse ?_ hadd
    rw [htakes, if_pos (.inr ⟨hp.1, hnil.mp hne⟩)]
  · next hp =>
    cases hadd
    have hfree : m.type = .processor → m.routes = [] := by
      intro hproc
      by_contra hne
      exact hp ⟨hproc, length_pos_iff.mpr hne⟩
    refine ⟨taken ++ [i], hr ▸ h.join hm hfree, fun _ => ?_⟩
    rw [htakes, if_neg]
    · rfl
    · rintro (hcon | ⟨hproc, hcon⟩)
      · exact hce hcon
      · exact hnil.mpr hcon (hfree hproc)

variable {path text rest : Bytes}

theorem endSegment_grown (hend : endSegment add path ctx' text rest = .ok (ctx'', e)) :
    GrownTo ctx add (taken ++ (ctx.takes taken (modname text)).toList) ctx'' e := by
  unfold endSegment at hend
  split at hend
  · cases hend
    exact ⟨taken, h, by simp⟩
  · split at hend
    · cases hend
      exact ⟨taken, h, by simp⟩
    · exact addModule_grown h hr hend

/-- Behind a separator the loop starts again with an empty text. -/
theorem goOn_grown {path text tail rest : Bytes} {msg : String}
    {parse : Ctx → Res (Ctx × Option String)}
    (hparse : ∀ {taken1 ctx1}, Grown ctx add.name add.priority taken1 ctx1 →
      parse ctx1 = .ok (ctx'', e) → GrownTo ctx add (ctx.named taken1 (segments [] rest)) ctx'' e)
    (hok : (endSegment add path ctx' text tail >>= goOn add msg rest parse) = .ok (ctx'', e)) :
    GrownTo ctx add (ctx.named taken (text :: segments [] rest)) ctx'' e := by
  obtain ⟨⟨ctx1, e1⟩, hend, hok⟩ := bind_eq_ok.mp hok
  obtain ⟨taken1, hgrown, htaken⟩ := endSegment_grown h hr hend
  cases e1 with
  | some e1 =>
    cases hok
    exact ⟨taken1, hgrown, by simp⟩
  | none =>
    simp only [goOn] at hok
    split at hok
    · cases hok
      exact ⟨taken1, hgrown, by simp⟩
    · obtain ⟨taken', hg, ht⟩ := hparse hgrown hok
      exact ⟨taken', hg, fun he => by rw [ht he, htaken rfl, Ctx.named]⟩

theorem parsePath_grown (hparse : parsePath add path text rest ctx' = .ok (ctx'', e)) :
    GrownTo ctx add (ctx.named taken (segments text rest)) ctx'' e := by
  fun_induction segments text rest generalizing taken ctx' with
  | case1 text =>
    rw [parsePath] at hparse
    exact endSegment_grown h hr hparse
  | case2 text c rest hc ih =>
    unfold parsePath at hparse
    rw [if_pos hc] at hparse
    exact ih h hparse
  | case3 text rest hc ih =>
    unfold parsePath at hparse
    rw [if_neg hc, if_pos rfl] at hparse
    exact goOn_grown h hr ih hparse
  | case4 text c hc hcomma ih =>
    unfold parsePath at hparse
    rw [if_neg hc, if_neg hcomma] at hparse
    exact ih h hparse
  | case5 text c hc hcomma d rest harrow ih =>
    unfold parsePath at hparse
    rw [if_neg hc, if_neg hcomma] at hparse
    dsimp only at hparse
    rw [if_pos harrow] at hparse
    exact goOn_grown h hr ih hparse
  | case6 text c hc hcomma d rest harrow ih =>
    unfold parsePath at hparse
    rw [if_neg hc, if_neg hcomma] at hparse
    dsimp only at hparse
    rw [if_neg harrow] at hparse
    exact ih h hparse

omit h hr

theorem grown_new : Grown ctx name priority []
    { ctx with created := ctx.created ++ [⟨name, priority, []⟩] } := by
  refine ⟨rfl, rfl, fun i => ?_, by simp, by simp, rfl⟩
  simp [Ctx.routesOf]

theorem release_keeps (taken : List Nat) (modules : List Declared) :
    (taken.foldl release modules).map (fun m => (m.static, m.routes)) = modules.map fun m =>
    (m.static, m.routes) := by
  induction taken generalizing modules with
  | nil => rfl
  | cons i taken ih =>
    rw [foldl_cons, ih]
    apply ext_getElem?
    intro j
    by_cases hij : i = j
    · simp [release, hij, Declared.static, Function.comp_def]
    · simp [release, hij]

variable {accepted : Bool}

include h hr in
theorem finishRoute_grown (hok : finishRoute add (ctx', e) = .ok (ctx'', accepted)) :
    Grown ctx add.name add.priority taken ctx'' ∧
      (accepted = true → e = none ∧ (∃ i ∈ taken, ctx.typeOf i = .input) ∧ ∃ i ∈ taken,
        ctx.typeOf i = .output) := by
  have harray : ctx'.arrayOf add.r = taken := by simp [Ctx.arrayOf, h.created, hr]
  have hremoved : Grown ctx add.name add.priority taken (ctx'.removeModules add.r) :=
    h.of_modules rfl (release_keeps _ _) rfl
  cases e with
  | some msg =>
    simp only [finishRoute] at hok
    split at hok
    · cases hok
      exact ⟨h, by simp⟩
    · cases hok
  | none =>
    simp only [finishRoute, acceptRoute, harray, typeOf_of_static h.static] at hok
    split at hok
    · split at hok
      · cases hok
        exact ⟨hremoved, by simp⟩
      · cases hok
    · next hin =>
      split at hok
      · split at hok
        · cases hok
          exact ⟨hremoved, by simp⟩
        · cases hok
      · next hout =>
        cases hok
        exact ⟨h.of_modules rfl rfl rfl, fun _ => ⟨rfl, by simpa using hin, by simpa using hout⟩⟩

variable {atoi : Bytes → Int}

/-- The modules of an accepted route are those that its path names, with an input and an output
among them. A route that is not accepted may leave some of them in its array as well. -/
theorem addRoute_grown {routeconf : Directive} {children : List Directive} {routename : CStr}
    (hok : addRoute atoi ctx routeconf children routename = .ok (ctx', accepted)) :
    ∃ path priority taken, cfgGetValue children pathKey = some path ∧ Grown ctx routename priority taken ctx' ∧
      (accepted = true → taken = ctx.named [] (segments [] path.1) ∧
        (∃ i ∈ taken, ctx.typeOf i = .input) ∧ ∃ i ∈ taken, ctx.typeOf i = .output) := by
  unfold addRoute at hok
  split at hok
  · next conf path _ hpath =>
    obtain ⟨priority, -, hok⟩ := bind_eq_ok.mp hok
    split at hok
    · cases hok
    obtain ⟨⟨ctx1, e⟩, hparse, hok⟩ := bind_eq_ok.mp hok
    obtain ⟨taken, hgrown, hnamed⟩ := parsePath_grown grown_new rfl hparse
    obtain ⟨hgrown', hacc⟩ := finishRoute_grown hgrown rfl hok
    refine ⟨path, priority, taken, hpath, hgrown', fun ha => ?_⟩
    obtain ⟨he, hinput, houtput⟩ := hacc ha
    exact ⟨hnamed he, hinput, houtput⟩
  · cases hok

/-! ## Modules and arrays agree -/

/-- A module has the routes in whose array it is; a processor has one at most, and is in its array
once. -/
structure Ctx.Wf (ctx : Ctx) : Prop where
  listed : ∀ i, ∀ r ∈ ctx.routesOf i, i ∈ ctx.arrayOf r
  joined : ∀ r, ∀ i ∈ ctx.arrayOf r, r ∈ ctx.routesOf i
  own : ∀ i, ctx.typeOf i = .processor → ∀ r ∈ ctx.routesOf i, ctx.routesOf i = [r] ∧
    (ctx.arrayOf r).count i = 1

/-- The routes that a module had before are older. -/
theorem Ctx.Wf.lt (h : ctx.Wf) {i r : Nat} (hr : r ∈ ctx.routesOf i) : r < ctx.created.length := by
  have := h.listed i r hr
  by_contra hlt
  rw [Ctx.arrayOf, getElem?_eq_none_iff.mpr (by omega)] at this
  simp at this

theorem Grown.wf (h : Grown ctx name priority taken ctx') (hwf : ctx.Wf) : ctx'.Wf := by
  refine ⟨?_, ?_, ?_⟩
  · intro i r hr
    rcases h.mem_routesOf.mp hr with hr | ⟨hi, rfl⟩
    · rw [h.arrayOf_of_ne (Nat.ne_of_lt (hwf.lt hr))]
      exact hwf.listed i r hr
    · rwa [h.arrayOf_new]
  · intro r i hi
    rw [h.mem_routesOf]
    by_cases hr : r = ctx.created.length
    · rw [hr, h.arrayOf_new] at hi
      exact .inr ⟨hi, hr⟩
    · rw [h.arrayOf_of_ne hr] at hi
      exact .inl (hwf.joined r i hi)
  · intro i htype r hr
    rw [typeOf_of_static h.static] at htype
    rw [h.routesOf]
    rcases h.mem_routesOf.mp hr with hr | ⟨hi, rfl⟩
    · obtain ⟨hone, hcount⟩ := hwf.own i htype r hr
      have hnot : i ∉ taken := by
        intro hi
        rw [(h.fresh i hi htype).1] at hr
        cases hr
      rw [h.arrayOf_of_ne (Nat.ne_of_lt (hwf.lt hr)), count_eq_zero.mpr hnot]
      exact ⟨by simp [hone], hcount⟩
    · obtain ⟨hnone, hcount⟩ := h.fresh i hi htype
      rw [h.arrayOf_new, hnone, hcount]
      exact ⟨rfl, rfl⟩

theorem wf_of_blocks {modules : List Declared} (hnew : ∀ m ∈ modules, m.routes = [])
    {ignoreerrors : Bool} {blocks : List Block}
    (hrun : run (addBlock atoi) ⟨modules, ignoreerrors, [], []⟩ blocks = .ok ctx) : ctx.Wf := by
  have hnone : ∀ i, Ctx.routesOf ⟨modules, ignoreerrors, [], []⟩ i = [] := by
    intro i
    unfold Ctx.routesOf
    cases hm : modules[i]? with
    | none => rfl
    | some m => exact hnew m (mem_of_getElem? hm)
  have hwf : Ctx.Wf ⟨modules, ignoreerrors, [], []⟩ := by
    refine ⟨?_, ?_, ?_⟩
    · simp [hnone]
    · simp [Ctx.arrayOf]
    · simp [hnone]
  refine run_keeps ?_ hwf hrun
  intro s block s' hs hstep
  unfold addBlock at hstep
  split at hstep
  · obtain ⟨⟨s1, accepted⟩, hadd, hstep⟩ := bind_eq_ok.mp hstep
    cases hstep
    obtain ⟨_, _, _, _, hgrown, _⟩ := addRoute_grown hadd
    exact hgrown.wf hs
  · cases hstep
    exact hs

end Growing

/-! ## Accepted routes -/

/-- The modules as they run; `base` has what the router does not look at. -/
def Ctx.conf (base : Conf) : Conf := fun i =>
  { base i with type := ctx.typeOf i, routes := (ctx.routesOf i).map ctx.arrayOf }

/-- A module with a queue does what it has to, with all its routes. -/
structure Runs (round : ℚ → ℚ) (conf : Conf) (logdata : Logdata) (m : Nat) : Prop where
  progresses : (conf m).type = .processor → Progresses conf logdata m
  resumes : ∀ w, ∃ signals, resumeSenders round conf w m = .ok signals

section Accepted

variable {round : ℚ → ℚ} {base : Conf} {logdata : Logdata} {ctx ctx' : Ctx} {name : CStr} {priority : Int}
  {taken : List Nat}

theorem Ctx.Wf.own_array (h : ctx.Wf) (r : Nat) : Own (ctx.conf base) (ctx.arrayOf r) := by
  intro m hm htype
  obtain ⟨hone, hcount⟩ := h.own m htype r (h.joined r m hm)
  exact ⟨by simp [Ctx.conf, hone], hcount⟩

theorem Ctx.Wf.runs_iff (h : ctx.Wf) (hround : 0 < round (100 * sevenTenths)) (m : Nat) :
    Runs round (ctx.conf base) logdata m ↔ (ctx.typeOf m = .processor → Progresses (ctx.conf base) logdata m) ∧
      ∀ r ∈ ctx.routesOf m, Reaches (ctx.conf base) (ctx.arrayOf r) m := by
  have hroutes : (∀ w, ∃ signals, resumeSenders round (ctx.conf base) w m = .ok signals) ↔
      ∀ r ∈ ctx.routesOf m, Reaches (ctx.conf base) (ctx.arrayOf r) m := by
    have hone : ∀ r ∈ ctx.routesOf m,
      ((∀ w, ∃ signals, resumeRoute round (ctx.conf base) w m (ctx.arrayOf r) = .ok signals) ↔
        Reaches (ctx.conf base) (ctx.arrayOf r) m) := fun r hr =>
      resumeRoute_iff hround (h.own_array r) (h.listed m r hr)
    have hall : ∀ w, (∃ signals, resumeSenders round (ctx.conf base) w m = .ok signals) ↔
        ∀ r ∈ ctx.routesOf m, ∃ signals, resumeRoute round (ctx.conf base) w m (ctx.arrayOf r) =
        .ok signals := by
      intro w
      rw [resumeSenders, resumeRoutes_iff]
      simp [Ctx.conf]
    constructor
    · intro hres r hr
      exact (hone r hr).mp fun w => (hall w).mp (hres w) r hr
    · intro hreach w
      exact (hall w).mpr fun r hr => (hone r hr).mpr (hreach r hr) w
  exact ⟨fun h => ⟨h.progresses, hroutes.mp h.resumes⟩, fun h => ⟨h.1, hroutes.mpr h.2⟩⟩

/-- The routes that a member of a new route had before, and the new one. -/
theorem Grown.reaches_iff (h : Grown ctx name priority taken ctx') (hwf : ctx.Wf) {m : Nat}
    (hm : m ∈ taken) : (∀ r ∈ ctx'.routesOf m, Reaches (ctx'.conf base) (ctx'.arrayOf r) m) ↔
      Reaches (ctx'.conf base) taken m ∧ ∀ r ∈ ctx.routesOf m, Reaches (ctx.conf base) (ctx.arrayOf r) m := by
  have htype : ∀ i, (ctx'.conf base i).type = (ctx.conf base i).type := typeOf_of_static h.static
  have hold : ∀ r ∈ ctx.routesOf m, (Reaches (ctx'.conf base) (ctx'.arrayOf r) m ↔
      Reaches (ctx.conf base) (ctx.arrayOf r) m) := by
    intro r hr
    rw [h.arrayOf_of_ne (Nat.ne_of_lt (hwf.lt hr)), reaches_congr htype]
  constructor
  · intro hall
    refine ⟨?_, fun r hr => (hold r hr).mp (hall r (h.mem_routesOf.mpr (.inl hr)))⟩
    have := hall ctx.created.length (h.mem_routesOf.mpr (.inr ⟨hm, rfl⟩))
    rwa [h.arrayOf_new] at this
  · rintro ⟨hnew, hall⟩ r hr
    rcases h.mem_routesOf.mp hr with hr | ⟨-, rfl⟩
    · exact (hold r hr).mpr (hall r hr)
    · rwa [h.arrayOf_new]

theorem Grown.runs_iff (h : Grown ctx name priority taken ctx') (hwf : ctx.Wf)
    (hround : 0 < round (100 * sevenTenths))
    {m : Nat} (hm : m ∈ taken) :
    Runs round (ctx'.conf base) logdata m ↔ RunsIn round (ctx'.conf base) logdata taken m ∧
      ∀ r ∈ ctx.routesOf m, Reaches (ctx.conf base) (ctx.arrayOf r) m := by
  have hown : Own (ctx'.conf base) taken := by
    have hnew : Own (ctx'.conf base) (ctx'.arrayOf ctx.created.length) := (h.wf hwf).own_array _
    rwa [h.arrayOf_new] at hnew
  have hroute := resumeRoute_iff hround hown hm
  rw [(h.wf hwf).runs_iff hround, h.reaches_iff hwf hm, ← hroute]
  exact ⟨fun ⟨hp, hr, hold⟩ => ⟨⟨hp, hr⟩, hold⟩, fun ⟨hin, hold⟩ => ⟨hin.progresses, hin.resumes, hold⟩⟩

end Accepted

/-- The modules of an accepted route do their work without a failed `ASSERT`, and no processor gives
a record to itself, exactly if the path names the modules in order, and its outputs were all right
in the routes they had already. -/
theorem accepted_routes_safe_iff {round : ℚ → ℚ} (hround : 0 < round (100 * sevenTenths)) {logdata : Logdata}
    (hsound : ∀ f ∈ logdata.fields, Sound f.value) {atoi : Bytes → Int} {modules : List Declared}
    (hnew : ∀ m ∈ modules, m.routes = []) {ignoreerrors : Bool} {blocks : List Block} {ctx : Ctx}
    (hrun : run (addBlock atoi) ⟨modules, ignoreerrors, [], []⟩ blocks = .ok ctx) {routeconf : Directive}
    {children : List Directive} {routename path : CStr}
    (hpath : cfgGetValue children pathKey = some path) {ctx' : Ctx}
    (hadd : addRoute atoi ctx routeconf children routename = .ok (ctx', true)) (base : Conf) :
    (∀ m ∈ ctx'.arrayOf ctx.created.length, queued (ctx'.conf base) m = true →
        Runs round (ctx'.conf base) logdata m) ↔
      InOrder ctx.typeOf logdata (ctx.named [] (segments [] path.1)) ∧
        ∀ m ∈ ctx.named [] (segments [] path.1), ctx.typeOf m = .output → ∀ r ∈ ctx.routesOf m,
          Reaches (ctx.conf base) (ctx.arrayOf r) m := by
  have hwf := wf_of_blocks hnew hrun
  obtain ⟨path', priority, taken, hpath', hgrown, hacc⟩ := addRoute_grown hadd
  obtain rfl : path = path' := Option.some.inj (hpath.symm.trans hpath')
  obtain ⟨htaken, -, i, hi, houtput⟩ := hacc rfl
  rw [← htaken, hgrown.arrayOf_new]
  have htype : (fun m => (ctx'.conf base m).type) = ctx.typeOf := funext fun m =>
    typeOf_of_static hgrown.static m
  have hown : Own (ctx'.conf base) taken := by
    have hnew : Own (ctx'.conf base) (ctx'.arrayOf ctx.created.length) := (hgrown.wf hwf).own_array _
    rwa [hgrown.arrayOf_new] at hnew
  have hall := Nxlog.L4.runs_iff hround hown hsound
  have hsome : ¬ ∀ m ∈ taken, queued (ctx'.conf base) m = false := by
    intro hnone
    have hi' : (ctx'.conf base i).type = .output := (congrFun htype i).trans houtput
    simpa [queued, hi'] using hnone i hi
  rw [or_iff_right hsome, htype] at hall
  rw [← hall]
  constructor
  · intro h
    refine ⟨fun m hm hq => ((hgrown.runs_iff hwf hround hm).mp (h m hm hq)).1, fun m hm hout => ?_⟩
    have hq : queued (ctx'.conf base) m = true := by
      have : (ctx'.conf base m).type = .output := (congrFun htype m).trans hout
      simp [queued, this]
    exact ((hgrown.runs_iff hwf hround hm).mp (h m hm hq)).2
  · rintro ⟨hin, hold⟩ m hm hq
    refine (hgrown.runs_iff hwf hround hm).mpr ⟨hin m hm hq, ?_⟩
    have hm' : ctx.typeOf m = .processor ∨ ctx.typeOf m = .output := by
      have hsame : (ctx'.conf base m).type = ctx.typeOf m := congrFun htype m
      simpa [queued, hsame] using hq
    rcases hm' with hproc | hout
    · simp [(hgrown.fresh m hm hproc).1]
    · exact hold m hm hout

def threeModules : List Declared :=
  [⟨lit "i", .input, false, [], 99, 0⟩, ⟨lit "p", .processor, false, [], 99, 0⟩,
    ⟨lit "o", .output, false, [], 99, 0⟩]

def pathDirective (path : CStr) : Directive := ⟨pathKey, path, lit "c", 1⟩

def pathInOrder : CStr := ⟨[105, 32, 61, 62, 32, 112, 32, 61, 62, 32, 111], by decide⟩

example : pathInOrder = lit "i => p => o" := rfl

def pathOutOfOrder : CStr := ⟨[111, 32, 44, 32, 105, 32, 61, 62, 32, 112], by decide⟩

example : pathOutOfOrder = lit "o , i => p" := rfl

/-- The route that the manual describes. -/
theorem accepted_route_in_order :
    ∃ ctx', addRoute (fun _ => 0) ⟨threeModules, false, [], []⟩ (pathDirective pathInOrder)
    [pathDirective pathInOrder]
        routeKey = .ok (ctx', true) ∧
      ∀ m ∈ ctx'.arrayOf 0, queued (ctx'.conf twoOutputs) m = true →
      Runs id (ctx'.conf twoOutputs) logdataNew m := by
  obtain ⟨ctx', hadd⟩ : ∃ ctx', addRoute (fun _ => 0) ⟨threeModules, false, [], []⟩
      (pathDirective pathInOrder) [pathDirective pathInOrder] routeKey = .ok (ctx', true) := ⟨_, rfl⟩
  have hround : (0 : ℚ) < id (100 * sevenTenths) := by norm_num [sevenTenths]
  have hnew : ∀ m ∈ threeModules, m.routes = [] := by simp [threeModules]
  have hrun : run (addBlock fun _ => 0) ⟨threeModules, false, [], []⟩ [] =
    .ok ⟨threeModules, false, [], []⟩ := rfl
  refine ⟨ctx', hadd, (accepted_routes_safe_iff hround logdataNew_sound hnew hrun rfl hadd
    twoOutputs).mpr ⟨?_, ?_⟩⟩
  · exact ⟨[0], [1], [2], [], rfl, by decide, by decide, by decide, by decide, by decide,
      by decide, .inr ⟨rfl, .inr rfl⟩⟩
  · intro m hm _ r hr
    have hnone : ∀ m ∈ [0, 1, 2], Ctx.routesOf ⟨threeModules, false, [], []⟩ m = [] := by decide
    rw [hnone m hm] at hr
    cases hr

/-- The output is first, and the processor last: both are accepted. Then the output panics when it
takes a record, and the processor gives its records to itself. -/
theorem accepted_route_out_of_order :
    ∃ ctx' w, addRoute (fun _ => 0) ⟨threeModules, false, [], []⟩ (pathDirective pathOutOfOrder)
        [pathDirective pathOutOfOrder] routeKey = .ok (ctx', true) ∧
      resumeSenders id (ctx'.conf twoOutputs) idleWorld 2 = .error (.assert "j > 0") ∧
      progressLogdata (ctx'.conf twoOutputs) 1 1 idleWorld logdataNew = .ok w ∧
      (w.queues 1).list = [logdataNew] := by
  exact ⟨_, _, rfl, rfl, rfl, rfl⟩

end Nxlog.L4.Router
