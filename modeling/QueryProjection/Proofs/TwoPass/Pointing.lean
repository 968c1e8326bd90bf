import QueryProjection.Proofs.Expr.Extraction
import QueryProjection.Proofs.TwoPass.Service

/-!
# Resolvers over a fetched record

`Resolve.substituteDependencies` makes the resolver of a service field read its dependencies from a
record.  Here the record is any expression, and the resolver may project and bind as it likes.

Extraction respects binders, but the substitution of chains does not: where the resolver binds its
context again and reads an extracted chain below that binder, the chain is replaced although it
reads something else.  That is the only way in which the meaning of the resolver can change.

* `Expr.readsBound` looks for a chain below a binder of its parameter;
* `Resolve.PointedAt` says where a resolver and what became of it differ:
  `Resolve.sameBut_substitute` is the step for one chain, and `Resolve.sameBut_substituteChains` the
  run over all of them;
* `Resolve.evaluated_substituteDependencies`: the resolver over the record evaluates to what it
  evaluates to over the value that the record was fetched from.

Chains are replaced one after the other, and a later one is looked for in what earlier ones have
left.  It is still found where it was, and nowhere else, because the record does not mention the
context (`Resolve.eq_of_sameBut_readsOf`); so the places of `Resolve.PointedAt` are places of the
original resolver throughout, and the comparison of values can wait until all chains are replaced.
-/

namespace QueryProjection

open Expr List

open Value (Agrees)

/-! ## Chains below binders -/

namespace Expr

mutual

/-- Whether the chain `whole` is read somewhere where `p` is bound, by one of the binders around the
expression or by one inside it. -/
def readsBound (p : Parameter) (whole : Expr) (bound : List Parameter) : Expr → Bool
  | .parameter _ => false
  | .constant _ _ _ => false
  | .member receiver name ty =>
    (decide (p ∈ bound) && same (.member receiver name ty) whole) || readsBound p whole
      bound receiver
  | .call _ receiver arguments =>
    readsBound p whole bound receiver || readsBoundAny p whole bound arguments
  | .binary _ left right => readsBound p whole bound left || readsBound p whole bound right
  | .serviceCall _ _ arguments _ => readsBoundAny p whole bound arguments
  | .lambda q body => readsBound p whole (q :: bound) body
  | .record _ values => readsBoundAny p whole bound values
  | .projectEach source q body =>
    readsBound p whole bound source || readsBound p whole (q :: bound) body
  | .projectOne source q body =>
    readsBound p whole bound source || readsBound p whole (q :: bound) body
  | .materialize inner => readsBound p whole bound inner

/-- The same for one of several expressions. -/
def readsBoundAny (p : Parameter) (whole : Expr) (bound : List Parameter) : List Expr → Bool
  | [] => false
  | e :: es => readsBound p whole bound e || readsBoundAny p whole bound es

end

variable {p : Parameter} {name : String} {whole : Expr} {bound : List Parameter} {e : Expr}

theorem readsBoundAny_eq_false_iff {es : List Expr} :
    readsBoundAny p whole bound es = false ↔ ∀ e ∈ es, readsBound p whole bound e = false := by
  induction es with
  | nil => simp [readsBoundAny]
  | cons e es ih => simp [readsBoundAny, ih]

theorem readsBound_eq_false_iff :
    readsBound p whole bound e = false
      ↔ (p ∈ bound → (∃ receiver name ty, e = .member receiver name ty) → ¬ same e whole = true)
        ∧ ∀ part ∈ e.parts, readsBound p whole (part.1 ++ bound) part.2 = false := by
  cases e <;> simp [readsBound, parts, readsBoundAny_eq_false_iff]

theorem not_mem_of_readsBound {receiver : Expr} {ty : Ty}
    (h : readsBound p (.member receiver name ty) bound (.member receiver name ty) = false) :
    p ∉ bound := by
  intro hp
  simp [readsBound, same_refl, hp] at h

theorem ChainOn.eq_member (h : ChainOn e name whole) :
    ∃ receiver name' ty, whole = .member receiver name' ty := by
  cases h with
  | first ty => exact ⟨_, _, ty, rfl⟩
  | next _ name' ty => exact ⟨_, name', ty, rfl⟩

/-- A chain is not found in an expression where its parameter is not free and that does not read the
chain below a binder. -/
theorem substitute_of_not_mem (hchain : ChainOn (.parameter p) name whole) (replacement e : Expr)
    (hfree : p ∈ e.freeParameters → p ∈ bound) (hread : readsBound p whole bound e = false) :
    e.substitute whole replacement = e := by
  have hreads := hchain.readsOf .parameter
  have hsame : ∀ x, same x whole = true → x = whole := fun _ => hreads.eq_of_same
  obtain ⟨receiver, name', ty, rfl⟩ := hchain.eq_member
  unfold substitute
  induction e using induct_parts generalizing bound with
  | parameter => rw [substituteIn, if_neg (by simp [same])]
  | node e he ih =>
    obtain ⟨hhere, hparts⟩ := readsBound_eq_false_iff.1 hread
    rw [substituteIn_eq, if_neg]
    · refine mapParts_eq_self fun part hpart => ih part hpart (fun hp => ?_) (hparts part hpart)
      by_cases hown : p ∈ part.1
      · exact mem_append_left _ hown
      · exact mem_append_right _ (hfree ((mem_freeParameters_parts he).2 ⟨part, hpart, hp, hown⟩))
    · intro h
      have heq := hsame _ h
      exact hhere (hfree (heq ▸ hreads.mem_freeParameters_iff.2 rfl)) ⟨_, _, _, heq⟩ h

end Expr

namespace Resolve

open QueryProjection.Expr (SameBut ChainOn readsBound)

/-! ## Where the resolver changes -/

/-- The member of the record that was fetched for a member of the context, in the record's own
spelling. -/
def fetchedMember? (keys : List (String × String)) (record : Expr) (name : String) : Option Expr :=
  record.recordMember? ((Assoc.find? name keys).getD name)

/-- The places where a chain has become a member of the record, outside all binders of `p`, and the
parameters. -/
def PointedAt (keys : List (String × String)) (record : Expr) (p : Parameter)
    (chains : Expr.Dependencies) (bound : List Parameter) (x y : Expr) : Prop :=
  (∃ q, x = .parameter q ∧ y = .parameter q)
    ∨ p ∉ bound ∧ ∃ d ∈ chains, fetchedMember? keys record d.1 = some x ∧ y = d.2.chain

section Pointed

variable {keys : List (String × String)} {record : Expr} {path : FieldPath} {p : Parameter}
  {chains : Expr.Dependencies} {binds : Parameter → Prop} {bound : List Parameter} {r t e : Expr}
  (hrecord : p ∉ record.freeParameters)

include hrecord

variable {m : Expr}

theorem not_mem_freeParameters_of_fetchedMember? {name : String}
    (h : fetchedMember? keys record name = some m) : p ∉ m.freeParameters := by
  obtain ⟨spelling, ty, rfl⟩ := recordMember?_eq_some h
  exact mt mem_freeParameters_member.1 hrecord

theorem eq_of_sameBut_readsOf (h : SameBut (PointedAt keys record p chains) binds bound r e)
    (hr : r.ReadsOf p) : e = r := by
  induction hr generalizing e bound with
  | parameter =>
    cases h with
    | place h =>
      rcases h with ⟨q, hx, rfl⟩ | ⟨-, d, -, hm, -⟩
      · exact hx.symm
      · exact absurd (mem_freeParameters_parameter.2 rfl)
          (not_mem_freeParameters_of_fetchedMember? hrecord hm)
    | layer h => cases h
  | member hreceiver name ty ih =>
    cases h with
    | place h =>
      rcases h with ⟨q, hx, -⟩ | ⟨-, d, -, hm, -⟩
      · cases hx
      · exact absurd ((hreceiver.member name ty).mem_freeParameters_iff.2 rfl)
          (not_mem_freeParameters_of_fetchedMember? hrecord hm)
    | layer h hR =>
      cases h with
      | member h => rw [ih (hR _ _ _ _ h)]

variable (hchains : ∀ d ∈ chains, ChainOn (.parameter p) d.1 d.2.chain)

include hchains

/-- **Putting a member in place of one chain** changes the resolver in such places only. -/
theorem sameBut_substitute {d : String × Dependency} (hd : d ∈ chains)
    (hm : fetchedMember? keys record d.1 = some m)
    (hunread : readsBound p d.2.chain [] record = false)
    (h : SameBut (PointedAt keys record p chains) binds bound r e)
    (hread : readsBound p d.2.chain bound e = false) :
    SameBut (PointedAt keys record p chains) binds bound (r.substitute d.2.chain m) e := by
  have hchain := hchains d hd
  have hreads := hchain.readsOf .parameter
  have hsame : ∀ x, same x d.2.chain = true → x = d.2.chain := fun _ => hreads.eq_of_same
  have hplaced (bound : List Parameter) (hp : p ∉ bound) :
      PointedAt keys record p chains bound m d.2.chain :=
    .inr ⟨hp, d, hd, hm, rfl⟩
  generalize d.2.chain = whole at *
  obtain ⟨receiver, name, ty, rfl⟩ := hchain.eq_member
  unfold substitute
  induction h with
  | place h =>
    rcases h with ⟨q, rfl, rfl⟩ | ⟨hp, d', hd', hm', rfl⟩
    · rw [substituteIn, if_neg (by simp [same])]
      exact .place (.inl ⟨q, rfl, rfl⟩)
    · have hfree := not_mem_freeParameters_of_fetchedMember? hrecord hm'
      obtain ⟨spelling, ty', rfl⟩ := recordMember?_eq_some hm'
      have hkept :
          readsBound p (.member receiver name ty) [] (.member record spelling ty') = false := by
        simp [readsBound, hunread]
      have hself := substitute_of_not_mem hchain m _ (fun h => absurd h hfree) hkept
      rw [substitute] at hself
      rw [hself]
      exact .place (.inr ⟨hp, d', hd', hm', rfl⟩)
  | layer h hR ih =>
    rw [substituteIn_eq]
    split
    · obtain rfl := hsame _ ‹_›
      obtain rfl := eq_of_sameBut_readsOf hrecord (.layer h hR) hreads
      exact .place (hplaced _ (not_mem_of_readsBound hread))
    · have hparts := (readsBound_eq_false_iff.1 hread).2
      refine .layer (Expr.Layer.mapParts_left (h.with_mem.imp ?_)) fun _ _ _ _ => id
      rintro bs bs' x x' hbs ⟨hx, -, hmem⟩
      have heq : Forall₂ Eq bs bs' := hbs.imp fun _ _ => And.left
      rw [List.forall₂_eq_eq_eq] at heq
      subst heq
      exact ih _ _ _ _ hx (hparts _ hmem)

/-- **Putting members in place of all chains**, one after the other, does so too. -/
theorem sameBut_substituteChains
    (hread : ∀ d ∈ chains, readsBound p d.2.chain [] e = false
      ∧ readsBound p d.2.chain [] record = false)
    {rest : Dependencies} (hrest : ∀ d ∈ rest, d ∈ chains)
    (h : substituteChains keys record path rest r = .ok t)
    (hr : SameBut (PointedAt keys record p chains) binds [] r e) :
    SameBut (PointedAt keys record p chains) binds [] t e := by
  induction rest generalizing r with
  | nil =>
    cases h
    exact hr
  | cons d rest ih =>
    obtain ⟨hd, hrest⟩ := forall_mem_cons.1 hrest
    obtain ⟨m, hm, h⟩ := substituteChains_cons h
    exact ih hrest h (sameBut_substitute hrecord hchains hd hm (hread d hd).2 hr (hread d hd).1)

end Pointed

/-! ## What the resolver means -/

/-- In the environment the record is an object that has, for each chain, what the chain evaluates to
where the context is `v`. -/
def Provides (services : Provider) (keys : List (String × String)) (record : Expr)
    (context : Parameter) (chains : Expr.Dependencies) (env : Environment) (v : Value) : Prop :=
  ∃ members, (record.valueOf services env).result = .ok (.object members)
    ∧ ∀ d ∈ chains, ∀ spelling ty, fetchedMember? keys record d.1
      = some (.member record spelling ty) →
      ∃ w, (d.2.chain.valueOf services (env.bind context v)).result = .ok w
        ∧ ((Assoc.find? spelling members).getD .null).Agrees w

/-- What the environments of the two resolvers have to do with each other, below the binders passed
so far. -/
structure Points (services : Provider) (keys : List (String × String)) (record : Expr)
    (p : Parameter)
    (chains : Expr.Dependencies) (bound : List Parameter) (env env' : Environment) : Prop where
  all : ∀ q, Option.Rel Agrees (env q) (env' q)
  fetched : p ∉ bound → ∀ d ∈ chains, ∀ m, fetchedMember? keys record d.1 = some m →
    Operand.Agrees (m.operand services env) (d.2.chain.operand services env')

section Meaning

variable {services : Provider} {keys : List (String × String)} {record : Expr} {path : FieldPath}
  {p : Parameter} {chains : Expr.Dependencies} {bound : List Parameter} {env env' : Environment}
  {v : Value}

/-- Binding a parameter that the record does not mention changes neither its members nor, unless it
is the context, the chains. -/
theorem Points.bind (hchains : ∀ d ∈ chains, ChainOn (.parameter p) d.1 d.2.chain)
    (h : Points services keys record p chains bound env env') {q : Parameter}
    (hq : q ∉ record.freeParameters) {v' : Value} (hv : v.Agrees v') :
    Points services keys record p chains (q :: bound) (env.bind q v) (env'.bind q v') := by
  refine ⟨fun r => Environment.rel_bind hv fun _ => h.all r, fun hp d hd m hm => ?_⟩
  obtain ⟨hne, hp⟩ := not_or.1 (mt mem_cons.2 hp)
  have hchain : q ∉ d.2.chain.freeParameters := fun hmem =>
    hne (((hchains d hd).readsOf .parameter).mem_freeParameters_iff.1 hmem).symm
  rw [operand_bind (not_mem_freeParameters_of_fetchedMember? hq hm), operand_bind hchain]
  exact h.fetched hp d hd m hm

theorem Points.of_provides (hrecord : p ∉ record.freeParameters)
    (h : Provides services keys record p chains env v) :
    Points services keys record p chains [] (env.bind p v) (env.bind p v) := by
  refine ⟨fun q => Option.rel_refl Agrees.refl _, fun _ d hd m hm => ?_⟩
  obtain ⟨members, hmembers, hprovided⟩ := h
  rw [operand_bind (not_mem_freeParameters_of_fetchedMember? hrecord hm)]
  obtain ⟨spelling, ty, rfl⟩ := recordMember?_eq_some hm
  obtain ⟨w, hw, hagrees⟩ := hprovided d hd spelling ty hm
  have hvalue : ((member record spelling ty).valueOf services env).result
      = .ok ((Assoc.find? spelling members).getD .null) := by
    rw [valueOf, operand, Run.result_bind]
    rw [valueOf] at hmembers
    rw [hmembers]
    rfl
  exact agrees_of_ok hvalue hw hagrees

end Meaning

/-- **Over the record a resolver means what it meant.**  It does not mention its context any more.
If none of its chains is read where the resolver, or the record expression, binds the context again,
then it evaluates to what it evaluates to where the context is bound to the value that the record
was fetched from. -/
theorem evaluated_substituteDependencies {definition : FieldDefinition}
    {keys : List (String × String)}
    {record t : Expr} {path : FieldPath}
    (h : substituteDependencies definition keys record path = .ok t) :
    definition.context ∉ t.freeParameters
      ∧ ∀ chains, definition.resolve.dependencies (.identity definition.context) path = .ok chains →
        (∀ d ∈ chains, readsBound definition.context d.2.chain [] definition.resolve = false
          ∧ readsBound definition.context d.2.chain [] record = false) →
        (∀ q ∈ record.freeParameters, q ∉ definition.resolve.binders) →
        ∀ services : Provider, services.Insensitive → ∀ env v,
          Provides services keys record definition.context chains env v →
          t.evaluated services env
            = definition.resolve.evaluated services (env.bind definition.context v) := by
  obtain ⟨chains, hchains, hsubstitute, hleft⟩ := substituteDependencies_eq_ok h
  have hcontext := Expr.not_mem_freeParameters_of_dependencies hleft
  refine ⟨hcontext, fun chains' hchains' hread hbinders services hservices env v hprovides => ?_⟩
  obtain rfl := Except.ok.inj (hchains.symm.trans hchains')
  have hroot := Expr.root_of_dependencies hchains
  have hchainOn := Expr.chainOn_of_dependencies hchains
  have hown (d : String × Dependency) (hd : d ∈ chains) :
      ChainOn (.parameter definition.context) d.1 d.2.chain := hroot d hd ▸ hchainOn d hd
  refine (Expr.evaluated_congr fun q hq =>
    (env.bind_of_ne (ne_of_mem_of_not_mem hq hcontext) v).symm).trans ?_
  by_cases hrecord : definition.context ∈ record.freeParameters
  -- A record that mentions the context would bring it into the resolver with the first chain.
  · have hnone : chains = [] := eq_nil_iff_forall_not_mem.2 fun d hd =>
      hcontext (mem_freeParameters_substituteChains (fun _ => hrecord)
        (fun d hd => ⟨hchainOn d hd, hroot d hd⟩) hsubstitute
        (Expr.mem_freeParameters_of_dependencies hchains hd))
    subst hnone
    cases hsubstitute
    rfl
  · have hself :
        SameBut (PointedAt keys record definition.context chains) (· ∉ record.freeParameters) []
          definition.resolve definition.resolve :=
      Expr.sameBut_self (fun _ q => .inl ⟨q, rfl, rfl⟩) _ fun q hq hfree => hbinders q hfree hq
    have hsame := sameBut_substituteChains hrecord hown hread (fun _ => id) hsubstitute hself
    refine Expr.evaluated_eq_of_agrees (hsame.agrees hservices
      (Points services keys record definition.context chains)
      (fun hq hpoints hv => hpoints.bind hown hq hv) ?_ (Points.of_provides hrecord hprovides))
    rintro bound x _ env env' (⟨q, rfl, rfl⟩ | ⟨hp, d, hd, hm, rfl⟩) hpoints
    · exact Expr.agrees_parameter (hpoints.all q)
    · exact hpoints.fetched hp d hd x hm

end Resolve

/-! The greeting of a person as a service field.  It binds the person again to look at the friends,
and reads an age there, but not the person's. -/

namespace Visitor

open Scores (person services)

def fetched : Parameter :=
  ⟨4, "fetched", .record [("friends", .list (.object "Person")), ("title", .string), ("age", .int)]⟩

/-- A service field with this resolver. -/
def field (resolve : Expr) : FieldDefinition where
  name := "greeting"
  description := none
  context := person
  resolve
  argumentsParameter := ⟨5, "arguments", .record []⟩
  arguments := []
  services := ["echo"]
  extensions := []

/-- The names are fetched under another key. -/
def keys : List (String × String) :=
  [("name", "title")]

def friends : Value :=
  .list [.object [("age", .int 12)], .object [("age", .int 18)]]

def env : Environment :=
  Environment.empty.bind fetched (.object [("friends", friends), ("title", .string "Ann"),
    ("age", .int 30)])

/-- The fetched friends for whom the given expression is above the limit. -/
def olderFetched (age : Expr) : Expr :=
  .call .filter (.member (.parameter fetched) "friends" (.list (.object "Person")))
    [.lambda person (.binary .gt age (.constant 3 (.int 17) .int))]

def greetingFetched : Expr :=
  .serviceCall "echo" "all" [olderFetched (.member (.parameter person) "age" .int),
    .member (.parameter fetched) "title" .string] (.list .null)

theorem provides_greeting : Resolve.Provides services keys (.parameter fetched) person found env
    (.object (members 30)) := by
  refine ⟨_, rfl, fun d hd spelling ty hm => ?_⟩
  rcases mem_cons.1 hd with rfl | hd
  · have hfriends : Resolve.fetchedMember? keys (.parameter fetched) "friends"
        = some (.member (.parameter fetched) "friends" (.list (.object "Person"))) := rfl
    obtain ⟨-, rfl, rfl⟩ := member.inj (Option.some.inj (hm.symm.trans hfriends))
    exact ⟨_, rfl, .refl _⟩
  · obtain rfl := mem_singleton.1 hd
    have htitle : Resolve.fetchedMember? keys (.parameter fetched) "name"
        = some (.member (.parameter fetched) "title" .string) := rfl
    obtain ⟨-, rfl, rfl⟩ := member.inj (Option.some.inj (hm.symm.trans htitle))
    exact ⟨_, rfl, .refl _⟩

end Visitor

/-- The age that is read of the friends is left alone. -/
theorem Visitor.evaluated_greetingFetched :
    Resolve.substituteDependencies (field greeting) keys (.parameter fetched) .operation
        = .ok greetingFetched
      ∧ greetingFetched.evaluated Scores.services env
        = greeting.evaluated Scores.services (env.bind Scores.person (.object (members 30))) := by
  have h : Resolve.substituteDependencies (field greeting) keys (.parameter fetched) .operation
      = .ok greetingFetched := rfl
  exact ⟨h, (Resolve.evaluated_substituteDependencies h).2 found rfl (by decide) (by decide) _
    Scores.insensitive env _ provides_greeting⟩

end QueryProjection
