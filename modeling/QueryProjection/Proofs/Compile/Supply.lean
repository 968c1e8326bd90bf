import QueryProjection.Proofs.Compile.Over
import QueryProjection.Proofs.Selected

/-!
# The numbers of new parameters

Compiling draws the numbers of new parameters from a supply, and never gives one back
(`Compiler.drawn_of_compileExpanded`).  So the constants of a compiled field, which are the
parameters of arguments, have numbers that were drawn while the field was compiled: they differ from
everything that was there before, and from the constants of any other field.  What a field is to be
evaluated with is therefore contained in what its selection is to be evaluated with
(`Compiler.includes_of_assemble`).

It has to be assumed that extensions do not give numbers back either (`Extension.Draws`).

A range of numbers is the right thing to keep: ranges of fields that are compiled one after another
are disjoint without a comparison of the fields, and merging their constants loses nothing then.
The memory is followed along (`Memory.Onward`), because both are needed of the same compilations.
-/

namespace QueryProjection

open List

/-- The numbers of the constants are drawn between two states of the supply, and their types are
types of arguments. -/
structure Constants.Drawn (T : Ty → Prop) (first last : Nat) (constants : Constants) : Prop where
  nodup : (Assoc.keys constants.entries).Nodup
  range : ∀ p ∈ Assoc.keys constants.entries, first ≤ p.id ∧ p.id < last ∧ T p.ty

/-! ## Paths -/

/-- The path `other` leads through `path`, or ends there. -/
def FieldPath.Below (path other : FieldPath) : Prop :=
  path.keys <+: other.keys

theorem FieldPath.Below.refl (path : FieldPath) : path.Below path :=
  prefix_refl _

variable {path other : FieldPath} {key key' : String} {mode : Mode} {m : Memory}

theorem FieldPath.Below.trans {third : FieldPath} (h : path.Below other) (h' : other.Below third) :
    path.Below third :=
  List.IsPrefix.trans h h'

theorem FieldPath.Below.child (h : path.Below other) (key : String) :
    path.Below (other.child key) :=
  List.IsPrefix.trans h (prefix_append _ _)

theorem FieldPath.eq_of_below_child (h : (path.child key).Below other)
    (h' : (path.child key').Below other) : key = key' := by
  obtain ⟨rest, hrest⟩ := h
  obtain ⟨rest', hrest'⟩ := h'
  have := hrest.trans hrest'.symm
  simp only [FieldPath.keys_child, append_assoc, singleton_append, append_cancel_left_eq]
    at this
  exact (cons.inj this).1

theorem FieldPath.child_injective (h : path.child key = path.child key') : key = key' :=
  eq_of_below_child (.refl (path.child key)) (h ▸ .refl (path.child key'))

/-! ## The memory -/

/-- What compiling does to the memory: the supply goes on, and only the data pass remembers what is
fetched, below the path of the field that is compiled. -/
structure Memory.Onward (mode : Mode) (path : FieldPath) (m m' : Memory) : Prop where
  next : m.next ≤ m'.next
  fetched : ∀ other, mode = .full ∨ ¬ path.Below other → m'.fetched.get other = m.fetched.get other

theorem Memory.Onward.refl (mode : Mode) (path : FieldPath) (m : Memory) : m.Onward mode path m :=
  ⟨Nat.le_refl _, fun _ _ => rfl⟩

theorem Memory.Onward.trans {m₁ m₂ : Memory} (h : m.Onward mode path m₁)
    (h' : m₁.Onward mode path m₂) : m.Onward mode path m₂ :=
  ⟨Nat.le_trans h.next h'.next,
    fun other hother => (h'.fetched other hother).trans (h.fetched other hother)⟩

theorem Memory.Onward.up {path' : FieldPath} {m' : Memory} (h : m.Onward mode path' m')
    (hpath : path.Below path') : m.Onward mode path m' :=
  ⟨h.next, fun other hother => h.fetched other (hother.imp id (mt hpath.trans))⟩

theorem Memory.Onward.draw {n : Nat} (h : m.next ≤ n) : m.Onward mode path { m with next := n } :=
  ⟨h, fun _ _ => rfl⟩

/-- The hooks of the extension give no number back. -/
structure Extension.Draws (extension : Extension) : Prop where
  preSelection : ∀ {context pre j pre' j'},
    Gives (extension.preSelection context pre) j pre' j' → j.next ≤ j'.next
  postSelection : ∀ {context post j post' j'},
    Gives (extension.postSelection context post) j post' j' → j.next ≤ j'.next

/-- The extensions of the known kinds draw from the supply and do no more to it. -/
theorem Extension.BuiltIn.draws {P : Value → Prop} {extension : Extension}
    (h : extension.BuiltIn P) : extension.Draws := by
  refine ⟨fun hpre => ?_, fun hpost => (h.known.postSelection_gives hpost).1 ▸ Nat.le_refl _⟩
  cases h with
  | filter argument made =>
    rcases filter_gives.1 hpre with ⟨-, -, rfl⟩ | ⟨-, value, p, condition, -, -, rfl, -, rfl⟩
    · exact Nat.le_refl _
    · exact Nat.le_trans (Nat.le_succ _) ((made _ _).draws _)
  | sort made =>
    rcases sort_gives.1 hpre with ⟨-, -, rfl⟩ | ⟨-, descending, p, key, -, -, rfl, -, rfl⟩
    · exact Nat.le_refl _
    · exact Nat.le_trans (Nat.le_succ _) ((made _).draws _)
  | offsetPaging defaultSize maxSize =>
    rcases offsetPaging_gives.1 hpre with ⟨-, -, rfl⟩ | ⟨-, -, skip, take, -, -, -, rfl⟩
    · exact Nat.le_refl _
    · exact Nat.le_refl _
  | position key =>
    rcases position_gives.1 hpre with ⟨-, -, rfl⟩ | ⟨-, element, item, -, -, -, rfl⟩
    · exact Nat.le_refl _
    · exact Nat.le_succ _

namespace Constants

variable {T : Ty → Prop} {constants other : Constants} {i j k l : Nat}

theorem drawn_empty : Constants.Drawn T i j {} :=
  ⟨nodup_nil, forall_mem_nil _⟩

theorem Drawn.mono (h : constants.Drawn T i j) (hi : k ≤ i) (hj : j ≤ l) : constants.Drawn T k l :=
  ⟨h.nodup, fun p hp => ⟨Nat.le_trans hi (h.range p hp).1,
    Nat.lt_of_lt_of_le (h.range p hp).2.1 hj, (h.range p hp).2.2⟩⟩

variable {p : Parameter}

theorem mem_keys_extend :
    p ∈ Assoc.keys (constants.extend other).entries
      ↔ p ∈ Assoc.keys constants.entries ∨ p ∈ Assoc.keys other.entries :=
  Assoc.mem_keys_insertAll

theorem Drawn.extend (h : constants.Drawn T i j) (ho : other.Drawn T i j) :
    (constants.extend other).Drawn T i j :=
  ⟨Assoc.nodup_keys_insertAll _ _ h.nodup,
    fun p hp => (mem_keys_extend.1 hp).elim (h.range p) (ho.range p)⟩

theorem get?_extend (ho : (Assoc.keys other.entries).Nodup) (p : Parameter) :
    (constants.extend other).get? p = (other.get? p).or (constants.get? p) :=
  Assoc.find?_insertAll ho p

theorem mem_keys_of_get? {v : Value} (h : constants.get? p = some v) :
    p ∈ Assoc.keys constants.entries :=
  (Assoc.mem_keys_iff p constants.entries).2 (Option.isSome_iff_exists.2 ⟨v, h⟩)

theorem Drawn.environment_eq_none (h : constants.Drawn T i j) (hp : p.id < i) :
    constants.environment p = none := by
  cases hget : constants.environment p with
  | none => rfl
  | some v => exact absurd (h.range p (mem_keys_of_get? hget)).1 (Nat.not_le_of_lt hp)

/-- Every constant of the one has the same value in the other. -/
def Includes (constants other : Constants) : Prop :=
  ∀ p v, other.get? p = some v → constants.get? p = some v

theorem Includes.trans {third : Constants} (h : constants.Includes other)
    (h' : other.Includes third) : constants.Includes third :=
  fun p v hv => h p v (h' p v hv)

theorem includes_extend_right (ho : (Assoc.keys other.entries).Nodup) :
    (constants.extend other).Includes other := by
  intro p v hv
  rw [get?_extend ho, hv]
  rfl

/-- The constants of the one were drawn before those of the other. -/
def Before (constants other : Constants) : Prop :=
  ∀ p ∈ Assoc.keys constants.entries, ∀ q ∈ Assoc.keys other.entries, p.id < q.id

theorem Drawn.before (h : constants.Drawn T i j) (ho : other.Drawn T k l) (hjk : j ≤ k) :
    constants.Before other := by
  intro p hp q hq
  have hfirst := (h.range p hp).2.1
  have hsecond := (ho.range q hq).1
  omega

theorem includes_extend_left (h : constants.Before other)
    (ho : (Assoc.keys other.entries).Nodup) : (constants.extend other).Includes constants := by
  intro p v hv
  have hnone : other.get? p = none := by
    cases hp : other.get? p with
    | none => rfl
    | some w => exact absurd (h p (mem_keys_of_get? hv) p (mem_keys_of_get? hp)) (Nat.lt_irrefl _)
  rw [get?_extend ho, hnone, hv]
  rfl

end Constants

namespace Compiler

variable {T : Ty → Prop} {field : SelectedField} {values : VariableValues} {context : Expr}
  {scope : Scope} {select : Select} {resolved : Resolved} {compiled : Compiled} {m m' : Memory}

/-- Compiling the selection below a field gives no number back. -/
def SelectsDrawn (T : Ty → Prop) (select : Select) : Prop :=
  ∀ {context : Expr} {scope : Scope} {m selection m'}, Gives (select context scope) m selection m' →
    m.Onward scope.mode scope.path m' ∧ selection.constants.Drawn T m.next m'.next

theorem drawn_of_resolve (hT : T field.definition.argumentsParameter.ty) {r : Resolved}
    (h : Gives (Resolve.resolve field values context scope) m r m') :
    m.Onward scope.mode scope.path m' ∧ (withArguments scope r.arguments).1.Drawn T
      m.next m'.next := by
  rcases Resolve.resolve_gives.1 h with ⟨e, -, rfl, rfl⟩ | ⟨-, h⟩
  · exact ⟨.refl _ _ _, Constants.drawn_empty⟩
  · obtain ⟨arguments, resolver, hbind, -, rfl, -⟩ := Resolve.build_gives.1 h
    obtain ⟨-, ⟨-, rfl, rfl⟩ | ⟨-, values, -, rfl, rfl⟩⟩ := Resolve.bindArguments_gives.1 hbind
    · exact ⟨.refl _ _ _, Constants.drawn_empty⟩
    · refine ⟨.draw (Nat.le_succ _), by simp [withArguments, Constants.insert,
        Assoc.insert, Assoc.keys], fun p hp => ?_⟩
      obtain rfl := mem_singleton.1 hp
      exact ⟨Nat.le_refl _, Nat.lt_succ_self _, hT⟩

theorem onward_of_runPreSelection {mode : Mode} {path : FieldPath} {context : HookContext}
    {extensions : List Extension} (hx : ∀ x ∈ extensions, x.Draws) {pre pre' : PreSelection}
    (h : Gives (runPreSelection context extensions pre) m pre' m') : m.Onward mode path m' :=
  keeps_of_runPreSelection (I := fun _ m₁ => m.Onward mode path m₁)
    (fun x hmem _ _ _ _ hhook hm => hm.trans ⟨(hx x hmem).preSelection hhook, fun _ _ => rfl⟩)
      h (.refl _ _ _)

variable {mode : Mode} {path : FieldPath} {first last : Nat} {compiler : Compiler}
  {selection : CompiledSelection} {contribution : Contribution} {contributions : List Contribution}

theorem onward_of_runPostSelection {context : HookContext} {extensions : List Extension}
    (hx : ∀ x ∈ extensions, x.Draws) {post post' : PostSelection}
    (h : Gives (runPostSelection context extensions post) m post' m') : m.Onward mode path m' :=
  keeps_of_runPostSelection (I := fun _ m₁ => m.Onward mode path m₁)
    (fun x hmem _ _ _ _ hhook hm => hm.trans ⟨(hx x hmem).postSelection hhook, fun _ _ => rfl⟩)
      h (.refl _ _ _)

theorem mode_withArguments (scope : Scope) (arguments : Option (Parameter × Value)) :
    (withArguments scope arguments).2.mode = scope.mode := by
  cases arguments <;> rfl

theorem path_withArguments (scope : Scope) (arguments : Option (Parameter × Value)) :
    (withArguments scope arguments).2.path = scope.path := by
  cases arguments <;> rfl

theorem drawn_of_compileResolved (hselect : SelectsDrawn T select)
    (hextensions : field.definition.Hooks Extension.Draws) (hfirst : first ≤ m.next)
    (hconstants : (withArguments scope resolved.arguments).1.Drawn T first m.next)
    (h : Gives (compileResolved field select resolved scope) m compiled m') :
    m.Onward scope.mode scope.path m' ∧ compiled.constants.Drawn T first m'.next := by
  have hmode := mode_withArguments scope resolved.arguments
  have hpath := path_withArguments scope resolved.arguments
  -- What the selection below draws comes after the arguments of the field.
  have hextend : ∀ {selected : Constants} {n l : Nat}, m.next ≤ n → n ≤ l →
      selected.Drawn T n l → ∀ {last : Nat}, l ≤ last →
      ((withArguments scope resolved.arguments).1.extend selected).Drawn T first last :=
    fun hn hl hs _ hlast =>
      (hconstants.mono (Nat.le_refl _) (Nat.le_trans hn (Nat.le_trans hl hlast))).extend
        (hs.mono (Nat.le_trans hfirst hn) hlast)
  rw [compileResolved_eq] at h
  split at h
  · obtain ⟨rfl, rfl⟩ := gives_pure.1 h
    exact ⟨.refl _ _ _, hconstants⟩
  · obtain ⟨-, element, selection, -, hs, rfl⟩ := compileObject_gives.1 h
    obtain ⟨honward, hdrawn⟩ := hselect hs
    have hnext : m.Onward scope.mode scope.path { m with next := m.next + 1 } :=
      .draw (Nat.le_succ _)
    exact ⟨hnext.trans (hmode ▸ hpath ▸ honward),
      hextend hnext.next honward.next hdrawn (Nat.le_refl _)⟩
  · rename_i hshape
    replace hextensions := hextensions hshape
    obtain ⟨ty, element, pre, m₁, selection, m₂, fields, -, -, hpre, hs, -, h⟩ :=
      compileList_gives.1 h
    have hfresh : m.Onward scope.mode scope.path { m with next := m.next + 1 } :=
      .draw (Nat.le_succ _)
    have hnext := hfresh.trans (onward_of_runPreSelection hextensions hpre)
    obtain ⟨honward, hdrawn⟩ := hselect hs
    have hm₂ : m.Onward scope.mode scope.path m₂ := hnext.trans (hmode ▸ hpath ▸ honward)
    split at h
    · obtain ⟨rfl, rfl⟩ := h
      exact ⟨hm₂, hextend hnext.next honward.next hdrawn (Nat.le_refl _)⟩
    · obtain ⟨post, hpost, rfl⟩ := h
      have hlast : m₂.Onward scope.mode scope.path m' := onward_of_runPostSelection
        (fun x hx => hextensions x (mem_reverse.1 hx)) hpost
      exact ⟨hm₂.trans hlast, hextend hnext.next honward.next hdrawn hlast.next⟩

theorem drawn_of_compileFrom {origin : Origin} (hT : T field.definition.argumentsParameter.ty)
    (hextensions : field.definition.Hooks Extension.Draws) (hselect : SelectsDrawn T select)
    (h : Gives (compiler.compileFrom field origin select context scope) m compiled m') :
    m.Onward scope.mode scope.path m' ∧ compiled.constants.Drawn T m.next m'.next := by
  have hown : ∀ {context : Expr} {scope : Scope} {m compiled m'},
      Gives (compiler.compileField field select context scope) m compiled m' →
        m.Onward scope.mode scope.path m' ∧ compiled.constants.Drawn T m.next m'.next := by
    intro context scope m compiled m' h
    obtain ⟨-, resolved, m₁, hresolve, h⟩ := compileField_gives.1 h
    obtain ⟨honward, hdrawn⟩ := drawn_of_resolve hT hresolve
    obtain ⟨honward', hdrawn'⟩ :=
      drawn_of_compileResolved hselect hextensions honward.next hdrawn h
    exact ⟨honward.trans honward', hdrawn'⟩
  obtain ⟨-, h⟩ | ⟨name, typeCondition, own, compiled', m₁, run, -, -, -, hc, -, -,
      hcompiled, rfl⟩ :=
    compileFrom_gives.1 h
  · exact hown h
  · obtain ⟨honward, hdrawn⟩ := hown hc
    have hfresh : m.Onward scope.mode scope.path { m with next := m.next + 1 } :=
      .draw (Nat.le_succ _)
    rw [hcompiled]
    exact ⟨⟨(hfresh.trans honward).next, (hfresh.trans honward).fetched⟩,
      hdrawn.mono (Nat.le_succ _) (Nat.le_refl _)⟩

/-! ## Selections -/

/-- The constants that one field of a selection contributes. -/
def Contribution.constants : Contribution → Constants
  | .selected _ compiled => compiled.constants
  | .deferred _ _ => {}

/-- The contributions of the fields of a selection at a path: what they draw comes one after the
other, and what has to be fetched for them is remembered below the path.  In the full pass nothing
has to be fetched. -/
structure Contributions (T : Ty → Prop) (mode : Mode) (path : FieldPath) (first last : Nat)
    (contributions : List Contribution) : Prop where
  drawn : ∀ c ∈ contributions, c.constants.Drawn T first last
  ordered : contributions.Pairwise fun c d => c.constants.Before d.constants
  dependencies : ∀ d ∈ contributions.flatMap Contribution.dependencies,
    mode = .dataOnly ∧ path.Below d.1

theorem onward_of_fetchAll {dependencies : List (FieldPath × String × Expr)}
    (hd : ∀ d ∈ dependencies, mode = .dataOnly ∧ path.Below d.1) {fields fields' : SelectionMap}
    (h : Gives (fetchAll dependencies fields) m fields' m') :
    m'.next = m.next ∧ m.Onward mode path m' := by
  induction dependencies generalizing fields m with
  | nil =>
    obtain ⟨-, rfl⟩ := fetchAll_nil_gives.1 h
    exact ⟨rfl, .refl _ _ _⟩
  | cons d rest ih =>
    obtain ⟨⟨rfl, hpath⟩, hrest⟩ := forall_mem_cons.1 hd
    obtain ⟨hnext, honward⟩ := ih hrest (fetchAll_cons_gives.1 h)
    refine ⟨hnext, honward.next, fun other hother => (honward.fetched other hother).trans ?_⟩
    refine (FetchedKeys.get_insert _ _ _ _ _).trans (if_neg ?_)
    rintro rfl
    exact hother.elim (fun h => absurd h (by decide)) fun h => h hpath

theorem drawn_of_add (h : selection.constants.Drawn T first last)
    (hc : contribution.constants.Drawn T first last) :
    (CompiledSelection.add selection contribution).constants.Drawn T first last := by
  cases contribution with
  | selected key compiled => exact h.extend hc
  | deferred path dependencies => exact h

theorem includes_of_add (hbefore : selection.constants.Before contribution.constants)
    (hc : (Assoc.keys contribution.constants.entries).Nodup) :
    (CompiledSelection.add selection contribution).constants.Includes selection.constants
      ∧ (CompiledSelection.add selection contribution).constants.Includes
        contribution.constants := by
  cases contribution with
  | selected key compiled =>
    exact ⟨Constants.includes_extend_left hbefore hc, Constants.includes_extend_right hc⟩
  | deferred path dependencies => exact ⟨fun _ _ h => h, fun _ _ h => nomatch h⟩

theorem before_of_add {other : Constants} (h : selection.constants.Before other)
    (hc : contribution.constants.Before other) :
    (CompiledSelection.add selection contribution).constants.Before other := by
  cases contribution with
  | selected key compiled => exact fun p hp => (Constants.mem_keys_extend.1 hp).elim (h p) (hc p)
  | deferred path dependencies => exact h

theorem drawn_of_assemble (hc : Contributions T mode path first last contributions)
    (h : Gives (assemble contributions) m selection m') :
    m'.next = m.next ∧ m.Onward mode path m' ∧ selection.constants.Drawn T first last := by
  have hadded : ∀ (contributions : List Contribution) (start : CompiledSelection),
      (∀ c ∈ contributions, c.constants.Drawn T first last) →
      start.constants.Drawn T first last →
      (contributions.foldl CompiledSelection.add start).constants.Drawn T first last := by
    intro contributions
    induction contributions with
    | nil => exact fun start _ hstart => hstart
    | cons c rest ih =>
      intro start hc hstart
      obtain ⟨hc, hrest⟩ := forall_mem_cons.1 hc
      exact ih _ hrest (drawn_of_add hstart hc)
  obtain ⟨fields, hfields, rfl⟩ := assemble_gives.1 h
  obtain ⟨hnext, honward⟩ := onward_of_fetchAll hc.dependencies hfields
  exact ⟨hnext, honward, hadded contributions {} hc.drawn Constants.drawn_empty⟩

theorem includes_of_assemble (hc : Contributions T mode path first last contributions)
    (h : Gives (assemble contributions) m selection m') :
    ∀ c ∈ contributions, selection.constants.Includes c.constants := by
  have hadded : ∀ (contributions : List Contribution) (start : CompiledSelection),
      (∀ c ∈ contributions, c.constants.Drawn T first last) →
      (contributions.Pairwise fun c d => c.constants.Before d.constants) →
      (∀ c ∈ contributions, start.constants.Before c.constants) →
      (contributions.foldl CompiledSelection.add start).constants.Includes start.constants
        ∧ ∀ c ∈ contributions,
          (contributions.foldl CompiledSelection.add start).constants.Includes c.constants := by
    intro contributions
    induction contributions with
    | nil => exact fun start _ _ _ => ⟨fun _ _ h => h, forall_mem_nil _⟩
    | cons c rest ih =>
      intro start hdrawn hordered hstart
      obtain ⟨hc, hdrawn⟩ := forall_mem_cons.1 hdrawn
      obtain ⟨hbefore, hordered⟩ := pairwise_cons.1 hordered
      obtain ⟨hfirst, hstart⟩ := forall_mem_cons.1 hstart
      obtain ⟨hkeeps, hadds⟩ := includes_of_add hfirst hc.nodup
      obtain ⟨hall, hrest⟩ := ih (CompiledSelection.add start c) hdrawn hordered fun d hd =>
        before_of_add (hstart d hd) (hbefore d hd)
      exact ⟨hall.trans hkeeps, forall_mem_cons.2 ⟨hall.trans hadds, hrest⟩⟩
  obtain ⟨fields, hfields, rfl⟩ := assemble_gives.1 h
  exact (hadded contributions {} hc.drawn hc.ordered fun c _ p hp => nomatch hp).2

/-- Wherever the field is compiled, no number is given back, and its constants have numbers that
were drawn for it. -/
def Draws (compiler : Compiler) (T : Ty → Prop) (e : Expanded) : Prop :=
  ∀ {context scope m compiled m'}, Gives (compiler.compileExpanded context scope e) m compiled m' →
    m.Onward scope.mode scope.path m' ∧ compiled.constants.Drawn T m.next m'.next

theorem drawn_of_compileFields {fields : List Expanded}
    (hbelow : ∀ f ∈ fields, compiler.Draws T f)
    (h : Gives (compiler.compileFields context scope fields) m contributions m') :
    m.Onward scope.mode scope.path m'
      ∧ Contributions T scope.mode scope.path m.next m'.next contributions := by
  induction fields generalizing m contributions with
  | nil =>
    obtain ⟨rfl, rfl⟩ := gives_pure.1 h
    exact ⟨.refl _ _ _, forall_mem_nil _, .nil, forall_mem_nil _⟩
  | cons f rest ih =>
    rw [compileFields_cons] at h
    simp only [gives_bind, gives_pure] at h
    obtain ⟨c, m₁, hc, others, m₂, hothers, rfl, rfl⟩ := h
    obtain ⟨hf, hrest⟩ := forall_mem_cons.1 hbelow
    obtain ⟨honward, hdrawn, hordered, hdependencies⟩ := ih hrest hothers
    have hown : m.Onward scope.mode scope.path m₁ ∧ c.constants.Drawn T m.next m₁.next
        ∧ ∀ d ∈ c.dependencies, scope.mode = .dataOnly ∧ scope.path.Below d.1 := by
      rcases contribute_gives.1 hc with ⟨hdefers, dependencies, -, rfl, rfl⟩ | ⟨-, compiled,
        hcompiled, rfl⟩
      · refine ⟨.refl _ _ _, Constants.drawn_empty, fun d hd => ?_⟩
        obtain ⟨_, -, rfl⟩ := mem_map.1 hd
        exact ⟨of_decide_eq_true (Bool.and_eq_true_iff.1 hdefers).1,
          (FieldPath.Below.refl _).child _⟩
      · exact ⟨(hf hcompiled).1.up ((FieldPath.Below.refl _).child _), (hf hcompiled).2,
          forall_mem_nil _⟩
    obtain ⟨hfirst, hfirstDrawn, hfetch⟩ := hown
    refine ⟨hfirst.trans honward, forall_mem_cons.2 ⟨hfirstDrawn.mono (Nat.le_refl _) honward.next,
      fun d hd => (hdrawn d hd).mono hfirst.next (Nat.le_refl _)⟩,
      .cons (fun d hd => hfirstDrawn.before (hdrawn d hd) (Nat.le_refl _)) hordered, fun d hd => ?_⟩
    rw [flatMap_cons] at hd
    exact (mem_append.1 hd).elim (hfetch d) (hdependencies d)

theorem selectsDrawn {expanded : ExpandedSelection}
    (hbelow : ∀ fields, expanded = .selects fields → ∀ f ∈ fields, compiler.Draws T f) :
    SelectsDrawn T fun context scope => compiler.compileSelection context scope expanded := by
  intro context scope m selection m' h
  obtain ⟨fields, contributions, m₁, hsel, hcontributions, h⟩ := compileSelection_gives.1 h
  obtain ⟨honward, hdrawn⟩ := drawn_of_compileFields (hbelow fields hsel) hcontributions
  obtain ⟨hnext, honward', hall⟩ := drawn_of_assemble hdrawn h
  exact ⟨honward.trans honward', hnext ▸ hall⟩

/-- **Compiling gives no number back**, and the constants of a field have numbers that were drawn
for it. -/
theorem drawn_of_compileExpanded {e : Expanded}
    (hfields : e.Every fun field _ => T field.definition.argumentsParameter.ty
      ∧ field.definition.Hooks Extension.Draws) :
    compiler.Draws T e := by
  induction e using Expanded.induct with
  | field e ih =>
    intro context scope m compiled m' h
    obtain ⟨_, hT, hextensions⟩ := hfields.holds
    rw [compileExpanded_eq] at h
    refine drawn_of_compileFrom hT hextensions (selectsDrawn ?_) h
    exact fun fields hsel f hf => ih fields hsel f hf (hfields.of_selects hsel hf)

end Compiler
end QueryProjection
