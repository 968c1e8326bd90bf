import QueryProjection.Proofs.Compile.Fields
import QueryProjection.Proofs.Compile.Supply

/-!
# What the data pass fetches

The data pass compiles the fields of a selection that need no service, and fetches for the others
the members that they read of their context.  What the full pass finds in the record of the
selection depends on the last field of each response key alone.

* `Expanded.LastIn` says that a field is the last one with its response key;
* `Compiler.selected_of_compileSelection`: a plain field that is last is found under its key;
* `Compiler.fetched_of_compileSelection`: what a service field that is last reads is found under the
  keys that are remembered for it.

A later field of the same key replaces the expression of an earlier one, but not what was fetched
for it: that stays in the record under its own key.  Nothing is ever removed or overwritten by what
is fetched, so a member that is found once is found in the finished record (`SelectionMap.Adds`).
-/

namespace QueryProjection

open List

/-! ## The last field of a key -/

/-- The field is one of the fields, and none behind it has the same response key. -/
def Expanded.LastIn (fields : List Expanded) (f : Expanded) : Prop :=
  ∃ before after, fields = before ++ f :: after
    ∧ ∀ g ∈ after, Text.sameIgnoringCase g.field.responseKey f.field.responseKey = false

variable {α : Type} {key : String} {fields : List Expanded} {f : Expanded}

theorem Merge.last?_eq_some_iff {entries : List (String × α)} {a : α} :
    last? key entries = some a
      ↔ ∃ before k after, entries = before ++ (k, a) :: after
        ∧ Text.sameIgnoringCase k key = true
        ∧ ∀ e ∈ after, Text.sameIgnoringCase e.1 key = false := by
  unfold last? first?
  rw [Option.map_eq_some_iff]
  constructor
  · rintro ⟨⟨k, a'⟩, hfind, rfl⟩
    obtain ⟨hk, after, before, heq, hnone⟩ := find?_eq_some_iff_append.1 hfind
    refine ⟨before.reverse, k, after.reverse, ?_, hk, fun e he => ?_⟩
    · rw [← reverse_reverse entries, heq]
      simp
    · simpa using hnone e (mem_reverse.1 he)
  · rintro ⟨before, k, after, rfl, hk, hnone⟩
    refine ⟨(k, a), ?_, rfl⟩
    rw [find?_eq_some_iff_append]
    refine ⟨hk, after.reverse, before.reverse, by simp, fun e he => ?_⟩
    rw [hnone e (mem_reverse.1 he)]
    rfl

theorem Merge.last?_append (key : String) (first second : List (String × α)) :
    last? key (first ++ second) = (last? key second).or (last? key first) := by
  unfold last? first?
  rw [reverse_append, find?_append, Option.map_or]

theorem Expanded.lastIn_of_last? (h : Merge.last? key (fields.map Expanded.entry) = some f) :
    f.LastIn fields ∧ Text.sameIgnoringCase f.field.responseKey key = true := by
  obtain ⟨before, k, after, heq, hk, hnone⟩ := Merge.last?_eq_some_iff.1 h
  obtain ⟨before', rest, rfl, -, hrest⟩ := map_eq_append_iff.1 heq
  obtain ⟨f', after', rfl, hf, rfl⟩ := map_eq_cons_iff.1 hrest
  obtain ⟨rfl, rfl⟩ := Prod.mk.inj hf
  refine ⟨⟨before', after', rfl, fun g hg => ?_⟩, hk⟩
  have hg' := hnone g.entry (mem_map_of_mem hg)
  rw [Bool.eq_false_iff] at hg' ⊢
  exact fun hsame => hg' (Merge.sameIgnoringCase_trans hsame hk)

theorem Expanded.LastIn.mem (h : f.LastIn fields) : f ∈ fields := by
  obtain ⟨before, after, rfl, -⟩ := h
  exact mem_append_right _ mem_cons_self

/-! ## Reading the record of a selection -/

namespace SelectionMap

variable {map : SelectionMap} {services : Provider} {env : Environment}
  {key spelling : String} {e : Expr}

theorem Distinct.nodup (h : map.Distinct) : (map.fields.map Prod.fst).Nodup :=
  h.imp fun hab => by
    rintro rfl
    rw [Text.sameIgnoringCase_refl] at hab
    cases hab

theorem forced?_toRecord (h : map.Distinct) :
    map.toRecord.forced? services env
      = (mapEntries (Expr.forced? services env) map.fields).map .object := by
  rw [toRecord, Expr.forced?_record (by simp) h.nodup]

theorem recordMember?_of_field? {record : Expr} (hty : record.ty = map.toRecord.ty)
    (h : map.field? key = some (spelling, e)) :
    record.recordMember? key = some (.member record spelling e.ty) := by
  have hfield :
      Shape.field? (map.fields.map fun f => (f.1, f.2.ty)) key = some (spelling, e.ty) := by
    rw [Shape.field?, find?_map]
    exact Option.map_eq_some_iff.2 ⟨(spelling, e), h, rfl⟩
  rw [Expr.recordMember?, hty]
  show ((Shape.field? (map.fields.map fun f => (f.1, f.2.ty)) key).bind _) = _
  rw [hfield]
  rfl

theorem find?_of_mapEntries {β : Type} {f : α → Option β} {entries : List (String × α)}
    {result : List (String × β)} (hnodup : (entries.map Prod.fst).Nodup)
    (h : mapEntries f entries = some result) {name : String} {a : α} (hmem : (name, a) ∈ entries) :
    ∃ b, f a = some b ∧ Assoc.find? name result = some b := by
  have hall := mapEntries_eq_some_iff.1 h
  clear h
  induction hall with
  | nil => exact absurd hmem not_mem_nil
  | @cons e r entries result hfirst _ ih =>
    rw [map_cons, nodup_cons] at hnodup
    rcases mem_cons.1 hmem with rfl | hmem
    · exact ⟨r.2, hfirst.2, if_pos hfirst.1⟩
    · obtain ⟨b, hb, hfind⟩ := ih hnodup.2 hmem
      refine ⟨b, hb, (if_neg fun heq => hnodup.1 ?_).trans hfind⟩
      rw [← hfirst.1, heq]
      exact mem_map_of_mem hmem

variable {v : Value}

theorem get?_of_field? (hd : map.Distinct) (hv : map.toRecord.forced? services env = some v)
    (h : map.field? key = some (spelling, e)) :
    ∃ w, e.forced? services env = some w ∧ v.get? spelling = some w := by
  rw [forced?_toRecord hd] at hv
  obtain ⟨members, hmembers, rfl⟩ := Option.map_eq_some_iff.1 hv
  exact find?_of_mapEntries hd.nodup hmembers (mem_of_find?_eq_some h)

theorem readMember_of_field? (hd : map.Distinct) (hv : map.toRecord.forced? services env = some v)
    (h : map.field? key = some (spelling, e)) :
    ∃ w, e.forced? services env = some w ∧ Expr.readMember spelling v = pure w := by
  obtain ⟨w, hw, hget⟩ := get?_of_field? hd hv h
  rw [forced?_toRecord hd] at hv
  obtain ⟨members, -, rfl⟩ := Option.map_eq_some_iff.1 hv
  have hfind : Assoc.find? spelling members = some w := hget
  refine ⟨w, hw, ?_⟩
  rw [Expr.readMember, hfind]
  rfl

end SelectionMap

/-! ## Fetching -/

namespace Compiler

variable {m m' : Memory} {fields fields' : SelectionMap}
  {dependencies : List (FieldPath × String × Expr)} {other : FieldPath}
  {selection : CompiledSelection}

theorem fetchAll_append_gives {first second : List (FieldPath × String × Expr)} :
    Gives (fetchAll (first ++ second) fields) m fields' m'
      ↔ ∃ fields₁ m₁, Gives (fetchAll first fields) m fields₁ m₁
          ∧ Gives (fetchAll second fields₁) m₁ fields' m' := by
  induction first generalizing fields m with
  | nil =>
    simp only [nil_append, fetchAll_nil_gives]
    constructor
    · exact fun h => ⟨fields, m, ⟨rfl, rfl⟩, h⟩
    · rintro ⟨_, _, ⟨rfl, rfl⟩, h⟩
      exact h
  | cons d rest ih =>
    obtain ⟨path, name, e⟩ := d
    simp only [cons_append, fetchAll_cons_gives, ih]

theorem get_of_fetchAll (hother : ∀ d ∈ dependencies, d.1 ≠ other)
    (h : Gives (fetchAll dependencies fields) m fields' m') :
    m'.fetched.get other = m.fetched.get other := by
  induction dependencies generalizing fields m with
  | nil =>
    obtain ⟨-, rfl⟩ := fetchAll_nil_gives.1 h
    rfl
  | cons d rest ih =>
    obtain ⟨hd, hrest⟩ := forall_mem_cons.1 hother
    refine (ih hrest (fetchAll_cons_gives.1 h)).trans ?_
    exact (FetchedKeys.get_insert _ _ _ _ _).trans (if_neg hd)

theorem find?_of_fetchAll {path : FieldPath} {dependencies : List (String × Expr)}
    (hnodup : (dependencies.map Prod.fst).Nodup)
    (h : Gives (fetchAll (dependencies.map fun d => (path, d.1, d.2)) fields) m fields' m') :
    (∀ d ∈ dependencies, ∃ key found, Assoc.find? d.1 (m'.fetched.get path) = some key
        ∧ fields'.field? key = some (key, found) ∧ found.same d.2 = true
        ∧ ∃ i, Text.sameIgnoringCase key (SelectionMap.fetchedKey d.1 i) = true)
      ∧ ∀ name ∉ dependencies.map Prod.fst,
        Assoc.find? name (m'.fetched.get path) = Assoc.find? name (m.fetched.get path) := by
  induction dependencies generalizing fields m with
  | nil =>
    obtain ⟨-, rfl⟩ := fetchAll_nil_gives.1 h
    exact ⟨forall_mem_nil _, fun _ _ => rfl⟩
  | cons d rest ih =>
    rw [map_cons, nodup_cons] at hnodup
    have hrest := fetchAll_cons_gives.1 h
    obtain ⟨hfound, hothers⟩ := ih hnodup.2 hrest
    have hwritten : ∀ name, Assoc.find? name ((m.fetched.insert path d.1
          (fields.insertFetched d.1 d.2).1).get path)
        = if d.1 = name then some (fields.insertFetched d.1 d.2).1
          else Assoc.find? name (m.fetched.get path) := by
      intro name
      rw [FetchedKeys.get_insert, if_pos rfl, Assoc.find?_insert]
    refine ⟨forall_mem_cons.2 ⟨?_, hfound⟩, fun name hname => ?_⟩
    · obtain ⟨found, hfield, hsame, htried⟩ := fields.field?_insertFetched d.1 d.2
      refine ⟨_, found, ?_, (adds_fetchAll (Q := fun _ => True)
        (fun _ _ => trivial) hrest).field? hfield, hsame, htried⟩
      rw [hothers d.1 hnodup.1, hwritten, if_pos rfl]
    · rw [map_cons, mem_cons, not_or] at hname
      rw [hothers name hname.2, hwritten, if_neg (Ne.symm hname.1)]

theorem distinct_of_assemble {contributions : List Contribution}
    (h : Gives (assemble contributions) m selection m') : selection.fields.Distinct := by
  obtain ⟨merged, hfetch, rfl⟩ := assemble_gives.1 h
  refine (adds_fetchAll (Q := fun _ => True) (fun _ _ => trivial) hfetch).distinct ?_
  rw [SelectionMap.Distinct, fields_of_contributions, Merge.keys_merge]
  exact Merge.pairwise_firstSpellings _

/-! ## The fields of a selection -/

variable {compiler : Compiler} {T : Ty → Prop} {context : Expr} {scope : Scope}
  {selected : List Expanded} {contributions : List Contribution}

theorem keys_of_compileFields
    (h : Gives (compiler.compileFields context scope selected) m contributions m') :
    (∀ e ∈ contributions.filterMap Contribution.entry?, ∃ f ∈ selected, e.1 = f.field.responseKey)
      ∧ ∀ d ∈ contributions.flatMap Contribution.dependencies, ∃ f ∈ selected,
        d.1 = scope.path.child f.field.responseKey := by
  constructor
  · intro e he
    obtain ⟨c, hc, he⟩ := mem_filterMap.1 he
    obtain ⟨f, hf, _, _, hgives⟩ := exists_contribute h hc
    rcases contribute_gives.1 hgives with ⟨-, _, -, rfl, -⟩ | ⟨-, _, -, rfl⟩
    · cases he
    · exact ⟨f, hf, (congrArg Prod.fst (Option.some.inj he)).symm⟩
  · intro d hd
    obtain ⟨c, hc, hd⟩ := mem_flatMap.1 hd
    obtain ⟨f, hf, _, _, hgives⟩ := exists_contribute h hc
    rcases contribute_gives.1 hgives with ⟨-, _, -, rfl, -⟩ | ⟨-, _, -, rfl⟩
    · obtain ⟨_, -, rfl⟩ := mem_map.1 hd
      exact ⟨f, hf, rfl⟩
    · cases hd

/-- Compiling fields leaves the keys alone that are not for them or for fields below them. -/
theorem get_of_compileFields (hdrawn : ∀ f ∈ selected, compiler.Draws T f)
    (hother : ∀ f ∈ selected, ¬ (scope.path.child f.field.responseKey).Below other)
    (h : Gives (compiler.compileFields context scope selected) m contributions m') :
    m'.fetched.get other = m.fetched.get other := by
  induction selected generalizing m contributions with
  | nil =>
    obtain ⟨-, rfl⟩ := compileFields_nil_gives.1 h
    rfl
  | cons f rest ih =>
    obtain ⟨c, m₁, others, hc, hrest, rfl⟩ := compileFields_cons_gives.1 h
    obtain ⟨hf, hdrawn⟩ := forall_mem_cons.1 hdrawn
    obtain ⟨hfOther, hother⟩ := forall_mem_cons.1 hother
    refine (ih hdrawn hother hrest).trans ?_
    rcases contribute_gives.1 hc with ⟨-, _, -, -, rfl⟩ | ⟨-, compiled, hcompiled, -⟩
    · rfl
    · exact (hf hcompiled).1.fetched other (.inr hfOther)

theorem isEmpty_eq_false_of_field? {map : SelectionMap} {f : String × Expr}
    (h : map.field? key = some f) : map.isEmpty = false := by
  rw [SelectionMap.isEmpty, Bool.eq_false_iff, ne_eq, List.isEmpty_iff]
  exact List.ne_nil_of_mem (List.mem_of_find?_eq_some h)

theorem eq_nil_of_fetchAll (h : Gives (fetchAll dependencies fields) m fields' m')
    (hempty : fields'.isEmpty = true) : dependencies = [] := by
  cases dependencies with
  | nil => rfl
  | cons d rest =>
    obtain ⟨found, hfield, -, -⟩ := fields.field?_insertFetched d.2.1 d.2.2
    have hadds := adds_fetchAll (Q := fun _ => True) (fun _ _ => trivial) (fetchAll_cons_gives.1 h)
    rw [isEmpty_eq_false_of_field? (hadds.field? hfield)] at hempty
    cases hempty

/-- **A selection without fields**: every field is deferred and reads nothing. -/
theorem deferred_of_isEmpty
    (h : Gives (compiler.compileSelection context scope (.selects selected)) m selection m')
    (hempty : selection.fields.isEmpty = true) :
    ∀ f ∈ selected, defers scope.mode f.field = true
      ∧ serviceDependencies f.field.definition context (scope.path.child f.field.responseKey)
          = .ok [] := by
  obtain ⟨_, contributions, m₁, heq, hfields, hassemble⟩ := compileSelection_gives.1 h
  cases heq
  obtain ⟨merged, hfetch, rfl⟩ := assemble_gives.1 hassemble
  have hdependencies := eq_nil_of_fetchAll hfetch hempty
  have hentries : contributions.filterMap Contribution.entry? = [] := by
    have hnone := (adds_fetchAll (Q := fun _ => True) (fun _ _ => trivial) hfetch).isEmpty hempty
    rwa [SelectionMap.isEmpty, fields_of_contributions, Merge.isEmpty_merge,
      List.isEmpty_iff] at hnone
  clear hassemble hfetch h hempty
  induction selected generalizing m contributions with
  | nil => exact forall_mem_nil _
  | cons f rest ih =>
    obtain ⟨c, m₂, others, hc, hrest, rfl⟩ := compileFields_cons_gives.1 hfields
    rw [flatMap_cons, append_eq_nil_iff] at hdependencies
    obtain ⟨hd, dependencies, hok, rfl, -⟩ | ⟨-, compiled, -, rfl⟩ := contribute_gives.1 hc
    · refine forall_mem_cons.2 ⟨⟨hd, ?_⟩, ih others hrest hdependencies.2 hentries⟩
      rw [map_eq_nil_iff.1 hdependencies.1] at hok
      exact hok
    · cases hentries

section Selection

variable (hdrawn : ∀ f ∈ selected, compiler.Draws T f)
  {selection : CompiledSelection}
  (h : Gives (compiler.compileSelection context scope (.selects selected)) m selection m')
  {f : Expanded} (hf : f.LastIn selected)

include hdrawn h hf

/-- **A compiled field is found.**  The last field with its response key, if it is compiled, is
found in the record of the selection, and what was remembered for the fields below it is still
known. -/
theorem selected_of_compileSelection (hdefers : defers scope.mode f.field = false) :
    ∃ compiled m₁ m₂, m.next ≤ m₁.next
      ∧ Gives (compiler.compileExpanded context (scope.field f.field.responseKey) f) m₁ compiled m₂
      ∧ selection.constants.Includes compiled.constants
      ∧ (∃ spelling, selection.fields.field? f.field.responseKey
          = some (spelling, compiled.expression))
      ∧ ∀ other, (scope.path.child f.field.responseKey).Below other →
          other ≠ scope.path.child f.field.responseKey →
          m'.fetched.get other = m₂.fetched.get other := by
  obtain ⟨_, contributions, m₃, heq, hfields, hassemble⟩ := compileSelection_gives.1 h
  cases heq
  obtain ⟨before, after, rfl, hafter⟩ := hf
  obtain ⟨first, m₁, rest, hbefore, hrest, rfl⟩ := compileFields_append_gives.1 hfields
  obtain ⟨c, m₂, second, hc, hsecond, rfl⟩ := compileFields_cons_gives.1 hrest
  obtain ⟨hd, -⟩ | ⟨-, compiled, hcompiled, rfl⟩ := contribute_gives.1 hc
  · rw [hdefers] at hd
    cases hd
  have hkeys := keys_of_compileFields hsecond
  obtain ⟨merged, hfetch, rfl⟩ := assemble_gives.1 hassemble
  refine ⟨compiled, m₁, m₂, ?_, hcompiled, ?_, ?_, fun other hbelow hne => ?_⟩
  · exact (drawn_of_compileFields (fun g hg => hdrawn g (mem_append_left _ hg)) hbefore).1.next
  · exact includes_of_assemble (drawn_of_compileFields hdrawn hfields).2 hassemble _
      (mem_append_right _ mem_cons_self)
  · -- No contribution behind that of the field has its key.
    have hlast : Merge.last? f.field.responseKey ((first ++ .selected f.field.responseKey compiled
        :: second).filterMap Contribution.entry?) = some compiled.expression := by
      refine Merge.last?_eq_some_iff.2 ⟨first.filterMap Contribution.entry?, f.field.responseKey,
        second.filterMap Contribution.entry?, ?_, Text.sameIgnoringCase_refl _, fun e he => ?_⟩
      · rw [filterMap_append]
        rfl
      · obtain ⟨g, hg, hkey⟩ := hkeys.1 e he
        rw [hkey]
        exact hafter g hg
    rw [← Merge.first?_merge, ← fields_of_contributions] at hlast
    obtain ⟨⟨spelling, e⟩, hfind, rfl⟩ := Option.map_eq_some_iff.1 hlast
    exact ⟨spelling, (adds_fetchAll (Q := fun _ => True) (fun _ _ => trivial) hfetch).field? hfind⟩
  · -- The fields behind the field have other keys, and what is fetched is remembered higher up.
    have hfetched : m'.fetched.get other = m₃.fetched.get other := by
      refine get_of_fetchAll (fun d hd hpath => hne ?_) hfetch
      obtain ⟨g, -, hg⟩ := (keys_of_compileFields hfields).2 d hd
      have hown : (scope.path.child g.field.responseKey).Below other := hpath ▸ hg ▸ .refl _
      rw [← hpath, hg, FieldPath.eq_of_below_child hown hbelow]
    refine hfetched.trans (get_of_compileFields (fun g hg => hdrawn g ?_)
      (fun g hg hbelow' => ?_) hsecond)
    · exact mem_append_right _ (mem_cons_of_mem _ hg)
    · have := hafter g hg
      rw [FieldPath.eq_of_below_child hbelow' hbelow, Text.sameIgnoringCase_refl] at this
      cases this

/-- **What a service field reads is found.**  The members that the last field with its response key
reads are found in the record of the selection, under the keys that are remembered for them. -/
theorem fetched_of_compileSelection (hdefers : defers scope.mode f.field = true) :
    ∃ dependencies, serviceDependencies f.field.definition context
          (scope.path.child f.field.responseKey) = .ok dependencies
      ∧ ((dependencies.map Prod.fst).Nodup → ∀ d ∈ dependencies, ∃ key found,
          Assoc.find? d.1 (m'.fetched.get (scope.path.child f.field.responseKey)) = some key
          ∧ selection.fields.field? key = some (key, found) ∧ found.same d.2 = true
          ∧ ∃ i, Text.sameIgnoringCase key (SelectionMap.fetchedKey d.1 i) = true) := by
  obtain ⟨_, contributions, m₃, heq, hfields, hassemble⟩ := compileSelection_gives.1 h
  cases heq
  obtain ⟨before, after, rfl, hafter⟩ := hf
  obtain ⟨first, m₁, rest, hbefore, hrest, rfl⟩ := compileFields_append_gives.1 hfields
  obtain ⟨c, m₂, second, hc, hsecond, rfl⟩ := compileFields_cons_gives.1 hrest
  obtain ⟨-, dependencies, hdependencies, rfl, rfl⟩ | ⟨hd, -⟩ := contribute_gives.1 hc
  · refine ⟨dependencies, hdependencies, fun hnodup d hd => ?_⟩
    obtain ⟨merged, hfetch, rfl⟩ := assemble_gives.1 hassemble
    rw [flatMap_append, flatMap_cons] at hfetch
    obtain ⟨fields₁, n₁, -, hfetch⟩ := fetchAll_append_gives.1 hfetch
    obtain ⟨fields₂, n₂, hown, hfetch⟩ := fetchAll_append_gives.1 hfetch
    obtain ⟨key, found, hkey, hfound, hsame, htried⟩ := (find?_of_fetchAll hnodup hown).1 d hd
    refine ⟨key, found, ?_,
      (adds_fetchAll (Q := fun _ => True) (fun _ _ => trivial) hfetch).field? hfound, hsame, htried⟩
    rw [get_of_fetchAll (fun d hd hpath => ?_) hfetch]
    · exact hkey
    · obtain ⟨g, hg, hpath'⟩ := (keys_of_compileFields hsecond).2 d hd
      have := hafter g hg
      rw [FieldPath.child_injective (hpath'.symm.trans hpath), Text.sameIgnoringCase_refl] at this
      cases this
  · rw [hdefers] at hd
    cases hd

end Selection

end Compiler
end QueryProjection
