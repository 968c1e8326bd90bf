import QueryProjection.Proofs.Stages.Order
import QueryProjection.Proofs.TwoPass.Fetched

/-!
# Positions

A numbering stage records where the elements stand when it is reached, but the position is added to
the selection by the second hook, which sees the last placeholder only.  So the key of every
numbering stage of a field holds the position at the last one of them
(`Compiler.positions_at_last`), and what it should hold is the same for that one only.

* `SelectionMap.field?_insertEach` says that the position is found under each key;
* `Stage.run_numbered` follows the elements through the stages together with their positions at the
  last numbering one.

The chain is cut at the last numbering stage.  Before the cut nothing has to be known of positions,
since the records that earlier stages made are inside the new ones; after it no stage swaps the
elements, so that a filter, a sort or a page moves each position along with its element
(`Stage.applyNumbered`).
-/

namespace QueryProjection

open List

/-! ## Keys -/

namespace SelectionMap

variable {map : SelectionMap} {keys : List String} {e : Expr}

theorem Distinct.insertEach (h : map.Distinct) (keys : List String) (e : Expr) :
    (map.insertEach keys e).Distinct := by
  induction keys generalizing map with
  | nil => exact h
  | cons key rest ih => exact ih (h.insert key e)

theorem field?_insertEach_of_ne {other : String}
    (h : ∀ key ∈ keys, Text.sameIgnoringCase key other = false) :
    (map.insertEach keys e).field? other = map.field? other := by
  induction keys generalizing map with
  | nil => rfl
  | cons key rest ih =>
    obtain ⟨hkey, hrest⟩ := forall_mem_cons.1 h
    exact (ih hrest).trans (field?_insert_of_ne hkey)

theorem field?_insertEach (hkeys : keys.Pairwise fun a b => Text.sameIgnoringCase a b = false)
    (hnew : ∀ key ∈ keys, map.field? key = none) {key : String} (hkey : key ∈ keys) :
    (map.insertEach keys e).field? key = some (key, e) := by
  induction keys generalizing map with
  | nil => cases hkey
  | cons first rest ih =>
    obtain ⟨hfirst, hrest⟩ := pairwise_cons.1 hkeys
    obtain ⟨hnone, hnew⟩ := forall_mem_cons.1 hnew
    rcases mem_cons.1 hkey with rfl | hkey
    · have hothers : ∀ other ∈ rest, Text.sameIgnoringCase other key = false := fun other hother =>
        (Text.sameIgnoringCase_comm other key).trans (hfirst other hother)
      exact (field?_insertEach_of_ne hothers).trans (field?_insert_self hnone)
    · refine ih hrest (fun other hother => ?_) hkey
      rw [field?_insert_of_ne (hfirst other hother)]
      exact hnew other hother

end SelectionMap

/-! ## Elements and their positions -/

namespace Stage

variable {services : Provider} {context : HookContext} {arguments : HookArguments} {oldest : Nat}
  {before after : List Stage} {key : String} {pre pre' : PreSelection} {m m' : Memory}

/-- What stages make of a list whose elements are numbered after the first part of the stages: the
elements that are left, each with its number. -/
def applyNumbered (services : Provider) (env : Environment) (given : String → Option Value)
    (before after : List Stage) (xs : List Value) : List (Value × Nat) :=
  applyAll services env given Prod.fst after (applyAll services env given id before xs).zipIdx

theorem map_fst_applyNumbered (services : Provider) (env : Environment)
    (given : String → Option Value) (before after : List Stage) (key : String) (xs : List Value) :
    (applyNumbered services env given before after xs).map Prod.fst
      = applyAll services env given id (before ++ .position key :: after) xs := by
  have hpairs : Forall₂ (fun (pair : Value × Nat) x => pair.1 = x)
      (applyAll services env given id before xs).zipIdx
        (applyAll services env given id before xs) := by
    rw [← forall₂_map_left_iff, zipIdx_map_fst]
    exact forall₂_refl _
  have hrun := forall₂_applyAll services env given (fun _ _ h => h) after hpairs
  rw [← forall₂_map_left_iff, forall₂_eq_eq_eq] at hrun
  rw [applyAll, foldl_append, foldl_cons]
  exact hrun

/-- The element is the record of a position and stands for an original element. -/
def StandsFor (services : Provider) (env : Environment) (pre : PreSelection) (item : Value)
    (pair : Value × Nat) : Prop :=
  pre.original? services env item = some pair.1 ∧ ∃ inner, item = numbered pair.2 inner

/-- **What a chain does to positions**: each element that comes out carries the number that it had
at the last numbering stage. -/
theorem run_numbered (hcontext : context.Fresh arguments oldest)
    (hold : ∀ q ∈ context.arguments, q.id < m.next)
    (hm : oldest ≤ m.next) (hreads : pre.elementContext.ReadsOf pre.element)
    (hstages : ∀ stage ∈ before ++ .position key :: after, stage.OlderThan oldest)
    (hplain : ∀ stage ∈ before ++ .position key :: after, ∀ name ∈ stage.reads,
      arguments.Plain name)
    (hafter : ∀ stage ∈ after, stage.positionKey? = none)
    (h : Gives (Compiler.runPreSelection context ((before ++ .position key :: after).map extension)
      pre) m pre' m')
    {env : Environment} (hbound : context.BoundIn env) :
    pre.Leads services env (fun items items' => ∀ ts,
          Forall₂ (fun item t => pre.original? services env item = some t) items ts →
          Forall₂ (StandsFor services env pre') items'
            (applyNumbered services env arguments.value? before after ts)) pre' := by
  intro w' hw'
  rw [map_append, map_cons, Compiler.runPreSelection_append_gives] at h
  obtain ⟨pre₁, m₁, hbefore, h⟩ := h
  obtain ⟨pre₂, j, hposition, hrest⟩ := Compiler.runPreSelection_cons_gives.1 h
  obtain ⟨hreads₁, hm₁, hfirst⟩ := run_stages hcontext hold hm hreads
    (fun stage hstage => hstages stage (mem_append_left _ hstage))
    (fun stage hstage => hplain stage (mem_append_left _ hstage)) hbefore
  obtain ⟨hreads₂, hj, -, hnumbers⟩ := position_step hcontext.materialized hreads₁ hposition
  have hnext : m.next ≤ j.next := hj ▸ Nat.le_succ_of_le hm₁
  have hmem : ∀ stage ∈ after, stage ∈ before ++ .position key :: after := fun stage hstage =>
    mem_append_right _ (mem_cons_of_mem _ hstage)
  obtain ⟨helement, helementContext, hlast⟩ :=
    run_windows (R := StandsFor services env pre₂) hcontext
    (fun q hq => Nat.lt_of_lt_of_le (hold q hq) hnext) (Nat.le_trans hm hnext) hreads₂
    (fun stage hstage => hstages stage (hmem stage hstage))
      (fun stage hstage => hplain stage (hmem stage hstage)) hrest
    hafter
  obtain ⟨hsame, hindexed⟩ := hnumbers env
  obtain ⟨w₂, hw₂, hlast⟩ := hlast hbound (fun _ _ hstands => hstands.1) hw'
  obtain ⟨w₁, hw₁, hindexed⟩ := hindexed hw₂
  obtain ⟨w, hw, hfirst⟩ := hfirst hbound hw₁
  have hnumbered : w₁.Through (fun items items' => ∀ ts,
      Forall₂ (fun item t => pre₁.original? services env item = some t) items ts →
        Forall₂ (StandsFor services env pre₂) items' ts.zipIdx) w₂ := by
    refine hindexed.imp ?_
    rintro items _ rfl ts hts
    refine (forall₂_indexedFrom hts 0).imp ?_
    rintro _ pair ⟨item, rfl, hitem⟩
    exact ⟨(hsame _ _).trans hitem, item, rfl⟩
  have hthrough : w₁.Through (fun items items' => ∀ ts,
      Forall₂ (fun item t => pre₁.original? services env item = some t) items ts →
        Forall₂ (StandsFor services env pre') items'
          (applyAll services env arguments.value? Prod.fst after ts.zipIdx)) w' := by
    refine hnumbered.trans (fun _ _ _ hzip hcarries ts hts => ?_) hlast
    refine (hcarries _ (hzip ts hts)).imp fun item pair hstands => ⟨?_, hstands.2⟩
    rw [PreSelection.original?_congr helement helementContext]
    exact hstands.1
  exact ⟨w, hw, hfirst.trans (fun _ _ _ hcarries hrest ts hts =>
    hrest _ (hcarries ts hts)) hthrough⟩

end Stage

namespace Compiler

variable {compiler : Compiler} {e : Expanded} {context : Expr} {scope : Scope} {m m₁ m' : Memory}
  {compiled : Compiled} {stages : List Stage} {resolved : Resolved} {services : Provider}
  {env : Environment} {fields : List Expanded} {selection : CompiledSelection} {key : String}

theorem field?_eq_none_of_selects {inner : Scope}
    (h : Gives (compiler.compileSelection context inner (.selects fields)) m selection m')
    (hmode : inner.mode = .full)
    (hkey : ∀ f ∈ fields, Text.sameIgnoringCase f.field.responseKey key = false) :
    selection.fields.field? key = none := by
  obtain ⟨made, _, rfl, -, -, hrecord, -⟩ :=
    compileSelection_full (I := fun _ => True) hmode (fun _ _ {_ _ _} _ _ => trivial) trivial h
  refine find?_eq_none.2 fun field hfield => ?_
  have hspelling : field.1 ∈ selection.fields.fields.map Prod.fst := mem_map_of_mem hfield
  rw [hrecord, Merge.keys_merge, map_map] at hspelling
  obtain ⟨made₁, hmade₁, hname⟩ := mem_map.1 (Merge.mem_of_mem_firstSpellings hspelling)
  rw [← hname]
  exact Bool.eq_false_iff.1 (hkey made₁.1 (mem_map_of_mem hmade₁))

theorem forced?_indexOf {element : Parameter} {index : Nat} {inner : Value} :
    (Stage.indexOf element).forced? services (env.bind element (Stage.numbered index inner))
      = some (.int (Int64.ofNat index)) := by
  rw [Expr.forced?, Stage.indexOf, Expr.value?_member, Expr.value?_parameter, Environment.bind_self]
  rfl

theorem get?_of_standsFor {pre : PreSelection}
    (hprojects : ProjectsOver compiler e scope stages compiled pre selection)
    (hselects : e.selection = .selects fields)
    (hkeys : (Stage.positionKeys stages).Pairwise fun a b => Text.sameIgnoringCase a b = false)
    (hapart : ∀ key ∈ Stage.positionKeys stages, ∀ f ∈ fields,
      Text.sameIgnoringCase f.field.responseKey key = false) {item record : Value}
    {pair : Value × Nat} (hstands : Stage.StandsFor services env pre item pair)
    (hrecord : (numberedFields stages pre selection).toRecord.forced? services
      (env.bind pre.element item)
      = some record) (hkey : key ∈ Stage.positionKeys stages) :
    record.get? key = some (.int (Int64.ofNat pair.2)) := by
  obtain ⟨inner, _, _, hselect, hmode⟩ := hprojects.selects
  rw [selectOf, hselects] at hselect
  have hdistinct : selection.fields.Distinct := by
    obtain ⟨_, _, _, -, -, hassemble⟩ := compileSelection_gives.1 hselect
    exact distinct_of_assemble hassemble
  have hreversed :
      (Stage.positionKeys stages).reverse.Pairwise fun a b => Text.sameIgnoringCase a b = false :=
    pairwise_reverse.2 (hkeys.imp fun h => (Text.sameIgnoringCase_comm _ _).trans h)
  have hfield := SelectionMap.field?_insertEach (e := Stage.indexOf pre.element) hreversed
    (fun k hk => field?_eq_none_of_selects hselect hmode (hapart k (mem_reverse.1 hk)))
    (mem_reverse.2 hkey)
  obtain ⟨w, hw, hget⟩ := SelectionMap.get?_of_field? (hdistinct.insertEach _ _) hrecord hfield
  obtain ⟨-, inner, rfl⟩ := hstands
  rw [forced?_indexOf] at hw
  rw [hget, hw]

/-- **Every position is the position at the last numbering stage.**  In the record of each element
the key of every numbering stage holds the index that the element has after the stages before the
last numbering one.  For that one this is the position at its own place. -/
theorem positions_at_last {before after : List Stage} {key : String}
    (hstages : stages = before ++ .position key :: after)
    (hafter : ∀ stage ∈ after, stage.positionKey? = none)
    (hstaged : e.Staged stages m.next) {fields : List Expanded}
    (hselects : e.selection = .selects fields)
    (hkeys : (Stage.positionKeys stages).Pairwise fun a b => Text.sameIgnoringCase a b = false)
    (hapart : ∀ key ∈ Stage.positionKeys stages, ∀ f ∈ fields,
      Text.sameIgnoringCase f.field.responseKey key = false)
    (hmode : scope.mode = .full) (hdirect : Resolve.readBack? e.field context scope = none)
    (hresolved : Gives (Resolve.resolve e.field compiler.values context scope) m resolved m₁)
    (h : Gives (compiler.compileField e.field (compiler.selectOf e) context scope) m compiled m') :
    ∃ pre selection, ProjectsOver compiler e scope stages compiled pre selection
      ∧ ∀ (services : Provider) (env : Environment) (v result : Value),
        (∀ b ∈ resolved.arguments, env b.1 = some b.2) →
          resolved.expression.value? services env = some v →
        v.isNull = false → compiled.expression.forced? services env = some result →
        ∃ (xs items records : List Value) (pairs : List (Value × Nat)), v.items? = some xs
          ∧ pairs = Stage.applyNumbered services env resolved.argument? before after xs
          ∧ pairs.map Prod.fst = Stage.applyAll services env resolved.argument? id stages xs
          ∧ items.mapM (pre.original? services env) = some (pairs.map Prod.fst)
          ∧ (items.mapM fun item => (numberedFields stages pre selection).toRecord.forced? services
              (env.bind pre.element item)) = some records
          ∧ result.items? = some records
          ∧ Forall₂ (fun record pair => ∀ key ∈ Stage.positionKeys stages,
              record.get? key = some (.int (Int64.ofNat pair.2))) records pairs := by
  subst hstages
  obtain ⟨hooks, arguments, pre, selection, hhooks, hprojects⟩ :=
    staged_of_compileField hstaged hmode hdirect hresolved h
  refine ⟨pre, selection, hprojects, fun services env v result henv hv hnull hresult => ?_⟩
  obtain ⟨element, m₂, m₃, hold, hm, hrun⟩ := hhooks.run
  have hthrough := @Stage.run_numbered services _ _ _ _ _ _ _ _ _ _ hhooks.context hold hm
    .parameter hstaged.older hhooks.plain hafter hrun env (hhooks.binds henv)
  obtain ⟨xs, items, records, hxs, hstands, hrecords, hresult⟩ :=
    hprojects.items hthrough hv hnull hresult
  have hstands := hstands xs (List.forall₂_same.2 fun x _ => original?_parameter x)
  rw [hhooks.values] at hstands
  refine ⟨xs, items, records, _, hxs, rfl, Stage.map_fst_applyNumbered services env _ before after
    key xs, ?_, hrecords, hresult, ?_⟩
  · exact mapM_eq_some_iff.2 (List.forall₂_map_right_iff.2 (hstands.imp fun _ _ h => h.1))
  · exact forall₂_trans (mapM_eq_some_iff.1 hrecords).flip hstands
      fun record item pair hrecord hpair k hk =>
      get?_of_standsFor hprojects hselects hkeys hapart hpair hrecord hk

end Compiler

namespace Roster

/-- The seats are numbered before the adults are looked for, and the ranks after that. -/
def ranked : List Stage := [.position "seat", ofAge] ++ .position "rank" :: [byAge]

def oldest : List (String × Value) := [("minAge", .int 18), ("descending", .boolean true)]

end Roster

open Roster in
/-- People are seated where they stand among the adults. -/
theorem seats_are_ranks :
    (names ranked oldest).Staged ranked 6
      ∧ ((Stage.positionKeys ranked).Pairwise fun a b => Text.sameIgnoringCase a b = false)
      ∧ Resolve.readBack? (names ranked oldest).field (.parameter context) scope = none
      ∧ ∃ resolved m₁ compiled m' result,
        Gives (Resolve.resolve (names ranked oldest).field compiler.values
          (.parameter context) scope) { next := 6 } resolved m₁
        ∧ Gives (compiles (names ranked oldest)) { next := 6 } compiled m'
        ∧ resolved.expression.value? .empty (environment oldest) = some everyone
        ∧ compiled.expression.forced? .empty (environment oldest) = some result
        ∧ result.text
          = "[\x7bname: \"Eve\", rank: 1, seat: 1\x7d, \x7bname: \"Ada\", rank: 0, seat: 0\x7d, "
            ++ "\x7bname: \"Cid\", rank: 2, seat: 2\x7d]"
        ∧ ∃ (records : List Value) (pairs : List (Value × Nat)), pairs.map Prod.snd = [1, 0, 2]
          ∧ result.items? = some records
          ∧ Forall₂ (fun record pair => ∀ key ∈ Stage.positionKeys ranked,
              record.get? key = some (.int (Int64.ofNat pair.2))) records pairs := by
  have hanswer : (answer? (names ranked oldest) oldest).map Value.text
      = some ("[\x7bname: \"Eve\", rank: 1, seat: 1\x7d, \x7bname: \"Ada\", rank: 0, seat: 0\x7d, "
        ++ "\x7bname: \"Cid\", rank: 2, seat: 2\x7d]") := by
    decide +kernel
  obtain ⟨compiled, m', result, hcompiled, hresult, htext⟩ := exists_of_answer? hanswer
  have hresolved : Gives
      (Resolve.resolve (names ranked oldest).field compiler.values (.parameter context) scope)
        { next := 6 }
      ⟨.member (.parameter context) "people" (.list (.object "Person")), false,
        Resolve.bound (names ranked oldest).field (some oldest) 6⟩ { next := 7 } := rfl
  have hbound : ∀ b ∈ Resolve.bound (names ranked oldest).field (some oldest) 6,
      environment oldest b.1 = some b.2 := by
    rintro b ⟨⟩
    rfl
  have hstaged : (names ranked oldest).Staged ranked 6 := staged (by decide +kernel) (by decide)
  have hkeys :
      (Stage.positionKeys ranked).Pairwise fun a b =>
        Text.sameIgnoringCase a b = false := by decide +kernel
  obtain ⟨pre, selection, -, hvalues⟩ := Compiler.positions_at_last rfl
    (by decide) hstaged rfl hkeys (by decide +kernel) rfl rfl hresolved hcompiled
  obtain ⟨xs, items, records, pairs, hxs, hpairs, -, -, -, hrecords, hpositions⟩ :=
    hvalues .empty (environment oldest) everyone result hbound rfl rfl hresult
  obtain rfl := Option.some.inj hxs
  refine ⟨hstaged, hkeys, rfl, _, _, compiled, m', result, hresolved, hcompiled, rfl, hresult,
    htext, records, pairs, ?_, hrecords, hpositions⟩
  rw [hpairs]
  simp only [Stage.applyNumbered, Stage.applyAll, foldl_cons, foldl_nil, ofAge, byAge, Stage.apply,
    ← Value.insertionSort_eq_ranked]
  decide +kernel

end QueryProjection
