import Nxlog.Core.Run
import Nxlog.L2Machine.FieldList

/-!
# The field list is a finite map

`nx_logdata_t` keeps its fields in a linked list and looks names up without
regard to case. Seen through `nx_logdata_get_field`, the list is a map from names
to values, and each operation on it is the operation of that map:

* `view ld`: what a get of each name returns.
* `FieldMap.set`, `FieldMap.delete`, `FieldMap.rename`: the operations of the map.
* `exec_law`: what one operation does to the list, given that the names in it are
  different.
* `field_store_finite_map`: along every run of operations from `nx_logdata_new`.

The list is more than the map: it has an order. An operation leaves the fields it
does not name where they are (`StepLaw.others`).
-/
namespace Nxlog.L2
open L1 Res List

/-! ## The map -/

abbrev FieldMap := CStr → Option NxValue

def FieldMap.set (m : FieldMap) (key : CStr) (v : NxValue) : FieldMap :=
  fun k => if strcasecmp key k then some v else m k

def FieldMap.delete (m : FieldMap) (key : CStr) : FieldMap :=
  fun k => if strcasecmp key k then none else m k

def FieldMap.rename (m : FieldMap) (old new : CStr) : FieldMap :=
  match m old with
  | none => m
  | some v => (m.delete old).set new v

def view (ld : Logdata) : FieldMap := fun k => (getField ld k).map Field.value

/-! ## The machine -/

/-- `addr` is the string that `nx_logdata_set_field` may allocate. -/
inductive FieldOp where
  | setFieldValue (key : CStr) (value : NxValue)
  | setField (field : Field) (addr : Nat)
  | renameField (old new : CStr)
  | deleteField (key : CStr)
  deriving DecidableEq

namespace FieldOp

def keys : FieldOp → List CStr
  | .setFieldValue key _ => [key]
  | .setField field _ => [field.key]
  | .renameField old new => [old, new]
  | .deleteField key => [key]

def exec (ld : Logdata) : FieldOp → Res Logdata
  | .setFieldValue key value => L2.setFieldValue ld key value
  | .setField field addr => L2.setField ld field addr
  | .renameField old new => L2.renameField ld old new
  | .deleteField key => do
    let (_, ld) ← L2.deleteField ld key
    return ld

def onMap (m : FieldMap) : FieldOp → FieldMap
  | .setFieldValue key value => m.set key value
  | .setField field _ => m.set field.key field.value
  | .renameField old new => m.rename old new
  | .deleteField key => m.delete key

/-- A field whose name is one of those the operation is given. -/
def touches (op : FieldOp) (f : Field) : Bool := op.keys.any fun k => named k f

def Freeable : FieldOp → Prop
  | .setFieldValue _ value => valueFree value = .ok ()
  | .setField field _ => valueFree field.value = .ok ()
  | _ => True

end FieldOp

/-- No name is `raw_event`, and a deleted field is named as it is stored. -/
def Allowed (ld : Logdata) (op : FieldOp) : Prop :=
  (∀ k ∈ op.keys, k ≠ rawEvent) ∧
  ∀ key, op = .deleteField key → ∀ f ∈ ld.fields, strcasecmp f.key key → f.key = key

/-- What an operation does: to the map, to the fields it does not name, and in the
two cases where it may do nothing at all. -/
structure StepLaw (ld : Logdata) (op : FieldOp) (ld' : Logdata) : Prop where
  map : view ld' = op.onMap (view ld)
  others : ld'.fields.filter (fun f => !op.touches f) = ld.fields.filter fun f => !op.touches f
  missing : ∀ old new, op = .renameField old new → view ld old = none → ld' = ld
  deleted : ∀ key, op = .deleteField key → ld'.fields = ld.fields.filter fun f => !named key f

/-! ## Names -/

variable {ld ld' : Logdata} {key old new : CStr} {w : NxValue} {op : FieldOp}

theorem view_eq_none {k : CStr} : view ld k = none ↔ getField ld k = none := by
  simp [view]

theorem view_put (hf : ld'.fields = putValue key w ld.fields)
    (hg : (getField ld key).isSome) : view ld' = (view ld).set key w := by
  funext k
  unfold view FieldMap.set
  by_cases hk : strcasecmp key k
  · obtain ⟨f, hf'⟩ := Option.isSome_iff_exists.mp hg
    have hgk : getField ld k = some f := by
      unfold getField at hf' ⊢
      rw [← named_congr hk]
      exact hf'
    rw [getField_putValue hf hk, hgk, if_pos hk]
    rfl
  · rw [getField_putValue_ne hf hk, if_neg hk]

theorem view_append (hg : getField ld key = none) : view (ld.appendFieldValue key w) =
    (view ld).set key w := by
  funext k
  unfold view FieldMap.set
  by_cases hk : strcasecmp key k
  · have hgk : getField ld k = none := by
      unfold getField at hg ⊢
      rw [← named_congr hk]
      exact hg
    have hlast : named k ⟨key, w⟩ = true := named_iff.mpr hk
    unfold getField at hgk ⊢
    simp [Logdata.appendFieldValue, find?_append, hgk, hlast, hk]
  · have hlast : named k ⟨key, w⟩ = false := by simpa [named] using hk
    unfold getField
    simp [Logdata.appendFieldValue, find?_append, hlast, hk]

theorem setFieldValue_view (h : setFieldValue ld key w = .ok ld') : view ld' = (view ld).set key w := by
  rcases (setFieldValue_cases h).2 with ⟨hg, rfl⟩ | ⟨hg, hf, -⟩
  · exact view_append hg
  · exact view_put hf hg

theorem distinct_put (h : DistinctNames ld) (hf : ld'.fields = putValue key w ld.fields) :
    DistinctNames ld' := by
  unfold DistinctNames
  rw [hf]
  apply pairwise_updateFirst h
  intro a _ b _ _ hab
  exact hab

theorem distinct_append (h : DistinctNames ld) (w : NxValue)
    (hg : getField ld key = none) : DistinctNames (ld.appendFieldValue key w) := by
  refine pairwise_append.mpr ⟨h, pairwise_singleton _ _, ?_⟩
  intro g hm f hf
  rw [mem_singleton.mp hf]
  exact getField_none hg g hm

/-- Both set operations append a new field or replace the value of the old one. -/
theorem set_law (hd : DistinctNames ld) (hkeys : op.keys = [key])
    (hmap : op.onMap (view ld) = (view ld).set key w) (hnr : ∀ old new, op ≠ .renameField old new)
    (hnd : ∀ k, op ≠ .deleteField k)
      (h : (getField ld key = none ∧ ld' = ld.appendFieldValue key w) ∨ ((getField ld key).isSome ∧
        ld'.fields = putValue key w ld.fields)) : StepLaw ld op ld' ∧ DistinctNames ld' := by
  have htouch : ∀ f, op.touches f = named key f := by
    intro f
    simp [FieldOp.touches, hkeys]
  have hself : named key ⟨key, w⟩ = true := named_iff.mpr (strcasecmp_refl _)
  suffices hlaw : view ld' = (view ld).set key w ∧
      ld'.fields.filter (fun f => !named key f) = ld.fields.filter (fun f => !named key f) ∧
      DistinctNames ld' by
    refine ⟨⟨hlaw.1.trans hmap.symm, ?_, ?_, ?_⟩, hlaw.2.2⟩
    · simpa only [htouch] using hlaw.2.1
    · intro old new he
      exact absurd he (hnr old new)
    · intro k he
      exact absurd he (hnd k)
  rcases h with ⟨hg, rfl⟩ | ⟨hg, hf⟩
  · exact ⟨view_append hg, by simp [Logdata.appendFieldValue, hself], distinct_append hd w hg⟩
  · refine ⟨view_put hf hg, ?_, distinct_put hd hf⟩
    rw [hf]
    exact filter_updateFirst (fun a ha => by simp [ha]) fun a ha => by simpa [named] using ha

/-! ## Renaming -/

theorem distinct_renamed (h : DistinctNames ld) (old new : CStr) :
    (renamed ld old new).Pairwise fun f g => ¬ strcasecmp f.key g.key := by
  rw [renamed_eq]
  apply pairwise_updateFirst (h.sublist (cleared_sublist ld old new))
  intro a _ b hb ha hab hc
  by_cases ho : strcasecmp old new
  · -- a respelling: the name was and stays different
    have hanew : strcasecmp a.key new := strcasecmp_trans (named_iff.mp ha) ho
    exact hab (strcasecmp_trans hanew hc)
  · have := cleared_new h ho b hb
    rw [named_iff.mpr (strcasecmp_comm.mp hc)] at this
    cases this

theorem view_renamed (h : DistinctNames ld) {f : Field}
    (hg : getField ld old = some f) (hf : ld'.fields = renamed ld old new) :
    view ld' = (view ld).rename old new := by
  have hold : view ld old = some f.value := by simp [view, hg]
  funext k
  simp only [FieldMap.rename, hold, FieldMap.set, FieldMap.delete]
  unfold view
  rw [getField_renamed h hg hf]
  split
  · rfl
  · split <;> rfl

/-- The fields with neither name are not moved. -/
theorem others_renamed (ld : Logdata) (old new : CStr) :
    (renamed ld old new).filter (fun f => !(FieldOp.renameField old new).touches f) =
      ld.fields.filter fun f => !(FieldOp.renameField old new).touches f := by
  have htouch : ∀ f, (FieldOp.renameField old new).touches f = (named old f || named new f) := by
    intro f
    simp [FieldOp.touches, FieldOp.keys]
  have hself : ∀ a : Field, named new ⟨new, a.value⟩ = true := fun a => named_iff.mpr (strcasecmp_refl _)
  simp only [htouch]
  rw [renamed_eq, filter_updateFirst (fun a ha => by simp [ha]) fun a _ => by simp [hself a]]
  unfold cleared
  by_cases he : (getField ld new).isSome ∧ ¬ strcasecmp old new
  · rw [if_pos he, filter_eraseP fun a ha => by simp [ha]]
  · rw [if_neg he]

theorem rename_law (hd : DistinctNames ld) (h : renameField ld old new = .ok ld') :
    StepLaw ld (.renameField old new) ld' ∧ DistinctNames ld' := by
  obtain ⟨-, ⟨hg, rfl⟩ | ⟨f, hg, hf, -⟩⟩ := renameField_cases h
  · refine ⟨⟨?_, rfl, fun _ _ _ _ => rfl, nofun⟩, hd⟩
    simp [FieldOp.onMap, FieldMap.rename, view_eq_none.mpr hg]
  refine ⟨⟨view_renamed hd hg hf, ?_, ?_, nofun⟩, ?_⟩
  · rw [hf]
    exact others_renamed ld old new
  · intro o n he hnone
    cases he
    rw [view_eq_none, hg] at hnone
    cases hnone
  · unfold DistinctNames
    rw [hf]
    exact distinct_renamed hd old new

/-! ## Deleting -/

theorem delete_law (hd : DistinctNames ld) {b : Bool}
    (hok : Allowed ld (.deleteField key)) (h : deleteField ld key = .ok (b, ld')) :
    StepLaw ld (.deleteField key) ld' ∧ DistinctNames ld' := by
  have hne : key ≠ rawEvent := hok.1 key mem_cons_self
  -- in the stored spelling, `strcmp` and `strcasecmp` find the same field
  have hsp : ∀ f ∈ ld.fields, spelled key f = named key f := by
    intro f hf
    rw [Bool.eq_iff_iff, spelled_iff, named_iff]
    constructor
    · intro he
      rw [he]
      exact strcasecmp_refl _
    · exact hok.2 key rfl f hf
  have hfields : ld'.fields = ld.fields.eraseP (named key) := by
    have hcongr : ld.fields.eraseP (spelled key) = ld.fields.eraseP (named key) :=
      eraseP_congr hsp
    rcases deleteField_cases h with ⟨-, rfl, hr | hno⟩ | ⟨-, hr, -⟩ | ⟨-, -, -, rfl⟩
    · exact absurd hr hne
    · symm
      apply eraseP_of_forall_not
      intro f hf hc
      rw [← hsp f hf] at hc
      exact hno f hf (spelled_iff.mp hc)
    · exact absurd hr hne
    · exact hcongr
  have hfilter : ld.fields.eraseP (named key) = ld.fields.filter fun f => !named key f :=
    eraseP_eq_filter hd named_distinct
  have htouch : ∀ f, (FieldOp.deleteField key).touches f = named key f := by
    intro f
    simp [FieldOp.touches, FieldOp.keys]
  refine ⟨⟨?_, ?_, nofun, ?_⟩, ?_⟩
  · funext k
    simp only [FieldOp.onMap, FieldMap.delete]
    unfold view getField
    rw [hfields]
    by_cases hk : strcasecmp key k
    · rw [if_pos hk, ← named_congr hk, find?_eq_none.mpr]
      · rfl
      · intro f hf
        rw [not_mem_eraseP hd named_distinct f hf]
        simp
    · rw [if_neg hk, find?_eraseP_of_ne fun a ha => named_ne hk ha]
  · simp only [htouch]
    rw [hfields]
    exact filter_eraseP fun a ha => by simp [ha]
  · intro k he
    cases he
    rw [hfields]
    exact hfilter
  · unfold DistinctNames
    rw [hfields]
    exact hd.sublist eraseP_sublist

/-! ## Steps and runs -/

theorem exec_law (hd : DistinctNames ld) (hok : Allowed ld op)
    (h : op.exec ld = .ok ld') : StepLaw ld op ld' ∧ DistinctNames ld' := by
  cases op with
  | setFieldValue key w =>
    refine set_law hd rfl rfl nofun nofun ((setFieldValue_cases h).2.imp_right ?_)
    rintro ⟨hg, hf, -⟩
    exact ⟨hg, hf⟩
  | setField field addr =>
    refine set_law hd rfl rfl nofun nofun ((setField_cases h).imp_right ?_)
    rintro ⟨f, hg, hf, -⟩
    exact ⟨by rw [hg]; rfl, hf⟩
  | renameField old new => exact rename_law hd h
  | deleteField key =>
    obtain ⟨⟨b, ld1⟩, hdel, hret⟩ := bind_eq_ok.mp h
    cases hret
    exact delete_law hd hok hdel

def AllFreeable (ld : Logdata) : Prop := ∀ f ∈ ld.fields, valueFree f.value = .ok ()

theorem freeable_put (h : AllFreeable ld)
    (hw : valueFree w = .ok ()) : ∀ f ∈ putValue key w ld.fields, valueFree f.value = .ok () := by
  intro f hf
  rcases mem_updateFirst hf with hf | ⟨g, -, -, rfl⟩
  · exact h f hf
  · exact hw

theorem freeable_append (h : AllFreeable ld) (hw : valueFree w = .ok ()) :
    AllFreeable (ld.appendFieldValue key w) :=
  forall_mem_append.mpr ⟨h, forall_mem_singleton.mpr hw⟩

theorem freeable_renamed (h : AllFreeable ld) (old new : CStr) :
    ∀ f ∈ renamed ld old new, valueFree f.value = .ok () := by
  have hmem := (cleared_sublist ld old new).subset
  intro f hf
  rcases mem_updateFirst hf with hf | ⟨g, hg, -, rfl⟩
  · exact h f (hmem hf)
  · exact h g (hmem hg)

/-- Every operation returns while the values can be freed. -/
theorem exec_returns (h : AllFreeable ld) (hok : Allowed ld op)
    (hop : op.Freeable) : ∃ ld', op.exec ld = .ok ld' ∧ AllFreeable ld' := by
  cases op with
  | setFieldValue key w =>
    have hk : key ≠ rawEvent := hok.1 key mem_cons_self
    cases hg : getField ld key with
    | none =>
      refine ⟨ld.appendFieldValue key w, ?_, freeable_append h hop⟩
      simp [FieldOp.exec, setFieldValue, hg]
    | some f =>
      have hfree := h f (getField_some hg).1
      refine ⟨{ ld with fields := putValue key w ld.fields }, ?_, freeable_put h hop⟩
      simp [FieldOp.exec, setFieldValue, hg, hk, hfree]
  | setField field addr =>
    cases hg : getField ld field.key with
    | none =>
      refine ⟨ld.appendFieldValue field.key field.value, ?_, freeable_append h hop⟩
      simp [FieldOp.exec, setField, hg, Logdata.appendFieldValue]
    | some f =>
      have hfree := h f (getField_some hg).1
      have hput : ∀ raw det, AllFreeable ⟨raw, putValue field.key field.value ld.fields, det⟩ :=
        fun _ _ => freeable_put h hop
      simp only [FieldOp.exec, setField, hg, hfree, ok_bind]
      split
      · split
        · exact ⟨_, rfl, hput _ _⟩
        · exact ⟨_, rfl, hput _ _⟩
      · exact ⟨_, rfl, hput _ _⟩
  | renameField old new =>
    have ho : old ≠ rawEvent := hok.1 old mem_cons_self
    have hn : new ≠ rawEvent := hok.1 new (mem_cons_of_mem _ mem_cons_self)
    have hren := freeable_renamed h old new
    cases hg : getField ld old with
    | none =>
      refine ⟨ld, ?_, h⟩
      simp [FieldOp.exec, renameField, ho, hg]
    | some f =>
      refine ⟨{ ld with fields := renamed ld old new }, ?_, hren⟩
      unfold renamed
      by_cases he : (getField ld new).isSome ∧ ¬ strcasecmp old new
      · simp [FieldOp.exec, renameField, ho, hg, hn, he]
      · simp only [FieldOp.exec, renameField, if_neg ho, hg, if_neg he]
  | deleteField key =>
    have hk : key ≠ rawEvent := hok.1 key mem_cons_self
    cases hg : ld.fields.find? (spelled key) with
    | none =>
      refine ⟨ld, ?_, h⟩
      simp [FieldOp.exec, deleteField, hg]
    | some f =>
      have hfree := h f (mem_of_find?_eq_some hg)
      have hfk : f.key ≠ rawEvent := by
        rw [spelled_iff.mp (find?_some hg)]
        exact hk
      refine ⟨{ ld with fields := ld.fields.eraseP (spelled key) }, ?_, ?_⟩
      · simp [FieldOp.exec, deleteField, hg, hfk, hfree]
      · intro g hgm
        exact h g (mem_of_mem_eraseP hgm)

theorem runs_of_freeable {ops : List FieldOp} {ld : Logdata} (h : AllFreeable ld)
    (hmeets : Meets FieldOp.exec Allowed ld ops) (hops : ∀ op ∈ ops, op.Freeable) :
    ∃ ld', run FieldOp.exec ld ops = .ok ld' := by
  induction ops generalizing ld with
  | nil => exact ⟨ld, rfl⟩
  | cons op ops ih =>
    obtain ⟨ld1, hstep, h1⟩ := exec_returns h hmeets.1 (hops op mem_cons_self)
    obtain ⟨ld2, hrun⟩ := ih h1 (hmeets.2 ld1 hstep) (forall_mem_cons.mp hops).2
    refine ⟨ld2, ?_⟩
    rw [run_cons, hstep]
    exact hrun

theorem logdataNew_distinct : DistinctNames logdataNew := pairwise_singleton _ _

theorem logdataNew_freeable : AllFreeable logdataNew := by
  intro f hf
  rw [mem_singleton.mp hf]
  rfl

/-- In every state the names are different; every step obeys `StepLaw`; a run acts
on the map as its operations do, so that a get returns what was last stored under
the name; and the run returns as long as it stores values that can be freed. -/
theorem field_store_finite_map (ops : List FieldOp) (h : Meets FieldOp.exec Allowed logdataNew ops) :
    Always FieldOp.exec DistinctNames logdataNew ops ∧
    AllSteps FieldOp.exec (fun ld op => ∀ ld', op.exec ld = .ok ld' →
    StepLaw ld op ld') logdataNew ops ∧ (∀ ld, run FieldOp.exec logdataNew ops = .ok ld →
      view ld = ops.foldl FieldOp.onMap (view logdataNew)) ∧
    ((∀ op ∈ ops, op.Freeable) → ∃ ld, run FieldOp.exec logdataNew ops = .ok ld) := by
  have hall : AllSteps FieldOp.exec Allowed logdataNew ops := h.allSteps
  have hlaw : AllSteps FieldOp.exec (fun ld op => ∀ ld', op.exec ld = .ok ld' → StepLaw ld op ld')
      logdataNew ops := by
    refine allSteps_of_step ?_ logdataNew_distinct hall
    intro ld op ld' hd hok hexec
    exact ⟨(exec_law hd hok hexec).2, fun ld2 h2 => (exec_law hd hok h2).1⟩
  refine ⟨?_, hlaw, ?_, ?_⟩
  · refine always_of_step ?_ logdataNew_distinct hall
    intro ld op ld' hd hok hexec
    exact (exec_law hd hok hexec).2
  · intro ld hrun
    refine run_simulates (allSteps_of_step (P := fun _ => True) ?_ trivial hlaw) hrun
    intro s a s' _ hl _
    exact ⟨trivial, fun s2 h2 => (hl s2 h2).map⟩
  · intro hfree
    exact runs_of_freeable logdataNew_freeable h hfree

/-- Set `A`, set `a` again, set `C`, rename `a` over `c`, delete a name that is not there. -/
def mixedOps : List FieldOp :=
  [.setFieldValue ⟨[65], by decide⟩ ⟨TRUE, .integer 1⟩, .setFieldValue ⟨[97], by decide⟩ ⟨TRUE, .integer 2⟩,
   .setField ⟨⟨[67], by decide⟩, ⟨TRUE, .integer 3⟩⟩ 7,
   .renameField ⟨[97], by decide⟩ ⟨[99], by decide⟩, .deleteField ⟨[65], by decide⟩]

theorem field_store_finite_map_mixed : Meets FieldOp.exec Allowed logdataNew mixedOps ∧
    ∃ ld, run FieldOp.exec logdataNew mixedOps = .ok ld ∧
      view ld ⟨[67], by decide⟩ = some ⟨TRUE, .integer 2⟩ ∧ view ld ⟨[65], by decide⟩ = none := by
  have hm : Meets FieldOp.exec Allowed logdataNew mixedOps := by
    refine ⟨⟨by decide, nofun⟩, fun s1 h1 => ?_⟩
    cases h1
    refine ⟨⟨by decide, nofun⟩, fun s2 h2 => ?_⟩
    cases h2
    refine ⟨⟨by decide, nofun⟩, fun s3 h3 => ?_⟩
    cases h3
    refine ⟨⟨by decide, nofun⟩, fun s4 h4 => ?_⟩
    cases h4
    refine ⟨⟨by decide, fun key he => ?_⟩, fun _ _ => trivial⟩
    cases he
    decide
  obtain ⟨-, -, hview, hret⟩ := field_store_finite_map mixedOps hm
  have hfree : ∀ op ∈ mixedOps, op.Freeable := by simp [mixedOps, FieldOp.Freeable, valueFree, TRUE]
  obtain ⟨ld, hrun⟩ := hret hfree
  refine ⟨hm, ld, hrun, ?_, ?_⟩
  · rw [hview ld hrun]
    decide
  · rw [hview ld hrun]
    decide

/-! ## Deletion and lookup -/

/-- A deletion returns TRUE exactly if the name was found, and leaves nothing to be found. -/
def Deletes (ld : Logdata) (key : CStr) : Prop :=
  ∃ found ld', deleteField ld key = .ok (found, ld') ∧ (∀ k, strcasecmp key k → view ld' k = none) ∧
    (found = true ↔ (view ld key).isSome)

/-- Deletion agrees with lookup exactly if the name is spelled as it is stored. -/
theorem delete_lookup_iff (ld : Logdata) (key : CStr) (hd : DistinctNames ld)
    (hfree : AllFreeable ld) (hraw : ¬ strcasecmp key rawEvent) :
    Deletes ld key ↔ ∀ f ∈ ld.fields, strcasecmp f.key key → f.key = key := by
  have hne : key ≠ rawEvent := fun h => hraw (h ▸ strcasecmp_refl _)
  constructor
  · rintro ⟨found, ld', h, hgone, -⟩ f hf hname
    by_contra hspelled
    have hkept : f ∈ ld'.fields := by
      rcases deleteField_cases h with ⟨-, rfl, -⟩ | ⟨-, hr, -⟩ | ⟨-, -, -, rfl⟩
      · exact hf
      · exact absurd hr hne
      · exact (mem_eraseP_of_neg (by simpa using hspelled)).mpr hf
    exact getField_none (view_eq_none.mp (hgone key (strcasecmp_refl _))) f hkept hname
  · intro hspelled
    have hok : Allowed ld (.deleteField key) :=
      ⟨by simpa [FieldOp.keys] using hne, fun k hk => by cases hk; exact hspelled⟩
    obtain ⟨ld', hexec, -⟩ := exec_returns hfree hok trivial
    obtain ⟨⟨found, ld1⟩, h, hret⟩ := bind_eq_ok.mp hexec
    refine ⟨found, ld1, h, fun k hk => ?_, ?_⟩
    · rw [(delete_law hd hok h).1.map]
      exact if_pos hk
    have hlookup : (view ld key).isSome ↔ ∃ f ∈ ld.fields, strcasecmp f.key key := by simp [view, getField]
    rw [hlookup]
    rcases deleteField_cases h with ⟨rfl, -, hr | hno⟩ | ⟨-, hr, -⟩ | ⟨rfl, -, ⟨f, hf, hk⟩, -⟩
    · exact absurd hr hne
    · exact iff_of_false nofun fun ⟨f, hf, hname⟩ => hno f hf (hspelled f hf hname)
    · exact absurd hr hne
    · exact iff_of_true rfl ⟨f, hf, hk ▸ strcasecmp_refl _⟩

theorem delete_lookup_found : Deletes (sampleRecord 5) ⟨[65], by decide⟩ ∧
    (view (sampleRecord 5) ⟨[65], by decide⟩).isSome :=
  ⟨(delete_lookup_iff (sampleRecord 5) ⟨[65], by decide⟩ (sampleRecord_encodable 5).unique
    (by simp [AllFreeable, sampleRecord, valueFree]) (by decide)).mpr (by decide), by decide⟩

/-- The field `A` is found as `a`, but not deleted as `a`. -/
theorem delete_other_spelling :
    let ld := logdataNew.appendFieldValue ⟨[65], by decide⟩ ⟨TRUE, .integer 1⟩
    deleteField ld ⟨[97], by decide⟩ = .ok (false, ld) ∧
      view ld ⟨[97], by decide⟩ = some ⟨TRUE, .integer 1⟩ := ⟨rfl, rfl⟩

end Nxlog.L2
