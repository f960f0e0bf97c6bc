import TermGraph.Proofs.Store.Sharing
import TermGraph.Proofs.Typing.Members

/-!
# Summations over collections and what was built before

The index of a summation over a collection is the placeholder of its nesting level and of the domain of
the elements, and placeholders are looked up by the host type alone.  So the members of the index may be
typed by another resolver than those of the collection: by that of the summation that came first.

For the sum of a member of each element this file says what comes out.  The outcome is computed by
`summation` from the text and the element type of the collection, its resolver, and the resolver of the
placeholder.  Nothing else that was built before has a say.

* `Expr.observed_sumOfMembers`: the outcome of a summation.
* `Store.Reachable.observed_sumOfMembers_eq`: two runs whose placeholders have one resolver.
-/

namespace TermGraph

open Store (Knows)

/-- What a run gives, or why it gives nothing. -/
def resultOf {σ α : Type} : EStateM.Result Error σ α → Except Error α
  | .ok a _ => .ok a
  | .error e _ => .error e

/-! ## Summations -/

namespace Store

variable {s t : Store} {c : Expr} {D : Domain} {level : ℕ}

/-- No summation over `c` has been made. -/
def Unsummed (s : Store) (c : Expr) : Prop :=
  ∀ e index body : Expr, s.Knows e → e.kind ≠ .collectionSum index c body

/-- This is about the nodes alone. -/
lemma Unsummed.of_nodes (h : s.Unsummed c) (hnodes : t.nodes = s.nodes) : t.Unsummed c :=
  fun e index body he => h e index body ((knows_iff_of_nodes hnodes).1 he)

lemma Unsummed.quiet (h : s.Unsummed c) (hquiet : s.Bindless t) : t.Unsummed c := by
  intro e index body he hkind
  rcases hquiet.index e he with hold | hnone
  · exact h e index body hold hkind
  · simp [hkind, Kind.index?] at hnone

/-- The same placeholders are found before and after quiet growth. -/
lemma Bindless.domain_placeholder (h : s.Bindless t) (level : ℕ) (D : Domain) :
    (t.placeholder level D).1.domain = (s.placeholder level D).1.domain := by
  unfold placeholder
  rw [h.placeholders]
  cases s.placeholders.find? fun p => p.level == level && p.domain == D <;> rfl

lemma Unsummed.placeholder (h : s.Unsummed c) (level : ℕ) (D : Domain) :
    (s.placeholder level D).2.Unsummed c := by
  unfold Store.placeholder
  split
  · exact h
  · have hquiet := Bindless.intern D (.symbol (placeholderName level)) rfl s
    exact (h.quiet hquiet).of_nodes rfl

/-- Whether no summation over `c` has been made. -/
def isUnsummed (s : Store) (c : Expr) : Bool :=
  s.nodes.toList.all fun e =>
    match e.kind with
    | .collectionSum _ c' _ => c'.ordinal != c.ordinal
    | _ => true

lemma Unsummed.of_isUnsummed (h : s.isUnsummed c = true) : s.Unsummed c := by
  intro e index body he hkind
  have hmem : e ∈ s.nodes.toList := Array.mem_toList_iff.2 (Array.mem_of_getElem? he)
  have hc := List.all_eq_true.1 h e hmem
  simp [hkind] at hc

/-- A placeholder is a symbol with the name of its level. -/
lemma WellFormed.exists_placeholder (hs : s.WellFormed) (level : ℕ) (D : Domain) :
    ∃ n, (s.placeholder level D).1 =
      .node n (s.placeholder level D).1.domain (.symbol (placeholderName level)) := by
  obtain ⟨hwf, -, p, hp, rfl, -, hsymbol⟩ := hs.placeholderOf level D
  have hnode := (hwf.placeholder hp).2
  rw [← hsymbol]
  refine ⟨p.symbol.ordinal, ?_⟩
  have hdomain := congrArg Expr.domain hnode
  rw [Expr.domain] at hdomain
  rwa [hdomain]

/-- A summation over a collection that has not been summed over before is a new node. -/
lemma Unsummed.intern (hs : s.WellFormed) (h : s.Unsummed c) (hc : s.Knows c) (D : Domain)
    (index body : Expr) :
    (s.intern D (.collectionSum index c body)).1 = .node s.nodes.size D (.collectionSum index c body) := by
  unfold Store.intern
  simp only [Kind.code]
  cases hfound : s.table[[12, index.ordinal, c.ordinal, body.ordinal]]? with
  | none => rfl
  | some e =>
    exfalso
    obtain ⟨he, hcode⟩ := hs.table_sound hfound
    have hchildren := hs.children he
    have hne := h e
    unfold Expr.children at hchildren
    cases hkind : e.kind <;> simp [hkind, Kind.code] at hcode
    case collectionSum index' c' body' =>
      rw [hkind] at hchildren
      simp only [Kind.children, knows_cons] at hchildren
      obtain rfl := WellFormed.eq_of_ordinal hchildren.2.1 hc hcode.2.1
      exact hne index' body' he hkind

end Store

namespace Expr

variable {s t : Store} {d : ℕ} {r r' : Resolver} {τ : HostType} {path : List String} {c body v : Expr}

/-- The sum over a collection of the member of each element at the end of a path, the last name first. -/
def sumOfMembers (collection : Expr) (path : List String) : Build Expr := do
  let v ← beginCollectionSum collection
  let body ← memberAt v path
  endCollectionSum collection v body

/-- What can be seen of a summation: its text, its domain and the domain of its index, or the message
that says why there is none. -/
def observed (outcome : EStateM.Result Error Store Expr) :
    Except String (String × Domain × Option Domain) :=
  (resultOf outcome).mapError Error.message |>.map fun e => (e.text, e.domain, e.kind.index?.map domain)

/-- The domain of a sum of members, or the message that says that they cannot be added. -/
def summedDomain (text : String) (D : Domain) : Except String Domain :=
  match D.resolveSum? D with
  | some domain => .ok domain
  | none => .error ("cannot add " ++ Error.quoted text D.text ++ " and " ++ Error.quoted text D.text)

/-- The outcome of a summation over a collection with the given text and elements of the type `τ`.  The
members of the elements are typed by `r`, and those of the index by `r'`. -/
def summation (text : String) (τ : HostType) (r r' : Resolver) (path : List String) :
    Except String (String × Domain × Option Domain) := do
  let found ← memberType r "v" τ path
  let domain ← summedDomain (memberText "v" path) (.ofType found r)
  let _ ← memberType r' "_1" τ path
  return ("sum(_1 in " ++ text ++ ", " ++ memberText "_1" path ++ ")", domain, some (.ofType τ r'))

/-- The domain of a body summed. -/
lemma tracks_bodyDomain (s : Store) (body : Expr) :
    Tracks d s (bodyDomain body) (summedDomain body.text body.domain) fun D D' t => t = s ∧ D' = D := by
  unfold bodyDomain summedDomain
  cases body.domain.resolveSum? body.domain with
  | some D => exact .pure ⟨rfl, rfl⟩
  | none => exact .throw rfl

/-- The element that a summation begins with. -/
lemma beginCollectionSum_apply (hc : c.domain = .host (.array τ) r) (d : ℕ) (s : Store) :
    beginCollectionSum c d s =
      .ok (s.intern (.ofType τ r) (.symbol "v")).1 (s.intern (.ofType τ r) (.symbol "v")).2 := by
  have helement : elementDomain c = pure (.ofType τ r) := by
    unfold elementDomain
    rw [hc]
    rfl
  unfold beginCollectionSum
  rw [helement, pure_bind]
  rfl

/-- Ends a summation. -/
lemma tracks_endCollectionSum (hd : 1 < d) (hs : s.WellFormed) (hnew : s.Unsummed c) (hc : s.Knows c)
    (hv : s.Knows v) (hsymbol : v = .node v.ordinal (.ofType τ r) (.symbol "v"))
    {found : HostType} (hbody : MemberIn s v r path found body)
    (hr : (s.placeholder 1 (.ofType τ r)).1.domain = .ofType τ r') :
    Tracks d s (endCollectionSum c v body) (do
      let domain ← summedDomain (memberText "v" path) (.ofType found r)
      let _ ← memberType r' "_1" τ path
      return ("sum(_1 in " ++ c.text ++ ", " ++ memberText "_1" path ++ ")", domain, some (.ofType τ r')))
      fun b e _ => b = (e.text, e.domain, e.kind.index?.map domain) := by
  have hvsymbol : v.isSymbol = true := by rw [hsymbol]; rfl
  have hvdomain : v.domain = .ofType τ r := by rw [hsymbol]; rfl
  have hvtext : v.text = "v" := by
    rw [hsymbol]
    simp [text, render, Rendering.single]
  have hbodytext := hbody.isMember.text hvsymbol
  rw [hvtext] at hbodytext
  have hsum := tracks_bodyDomain (d := d) s body
  rw [hbodytext, hbody.domain] at hsum
  unfold endCollectionSum endCollectionSumWith bindIndex
  refine hsum.bind ?_
  rintro _ D _ - ⟨ht, rfl⟩
  rw [ht]
  simp only [hbody.isMember.nesting hvsymbol, hvdomain, Nat.zero_add, bind_assoc, pure_bind]
  obtain ⟨hwf, hindexknown, -⟩ := hs.placeholderOf 1 (.ofType τ r)
  obtain ⟨n, hindex⟩ := hs.exists_placeholder 1 (.ofType τ r)
  have hle := Store.le_placeholder 1 (.ofType τ r) s
  have hnew' := hnew.placeholder 1 (.ofType τ r)
  -- The index is the placeholder of the elements, which may have been made for another resolver.
  refine .step (step_apply _ d s) ?_
  generalize s.placeholder 1 (.ofType τ r) = result at *
  obtain ⟨index, t⟩ := result
  dsimp only at *
  have hindexsymbol : index.isSymbol = true := by rw [hindex]; rfl
  have hindextext : index.text = "_1" := by
    rw [hindex]
    simp [text, render, Rendering.single]
    rfl
  have hne : v ≠ index := fun h => by
    rw [← h, hvtext] at hindextext
    exact absurd hindextext (by decide)
  have hnote : t ≤ (t.noteIndex index body).2 := Growing.le_final (x := Build.noteIndex index body) d t
  have hnoted := hwf.of_eq hnote rfl rfl rfl
  refine .step (step_apply _ d t) ?_
  -- It takes the place of `v`, and the members are looked up once more from its domain.
  have hmoved := tracks_substitute hd hvsymbol hindexsymbol hne hr hbody.isMember hnoted
    (hbody.known.mono (hle.trans hnote)) (hv.mono (hle.trans hnote)) (hindexknown.mono hnote)
  rw [hindextext] at hmoved
  refine hmoved.bind ?_
  rintro moved x u - ⟨hu, hquiet, hx⟩
  -- Nothing has been summed over `c` meanwhile, so that the summation is a new node.
  have hunsummed : u.Unsummed c := (hnew'.of_nodes (t := (t.noteIndex index body).2) rfl).quiet hquiet
  refine .change _ ?_
  rw [hunsummed.intern hu (hc.mono ((hle.trans hnote).trans hquiet.le))]
  have htext : (node u.nodes.size D (.collectionSum index c x)).text =
      "sum(_1 in " ++ c.text ++ ", " ++ memberText "_1" path ++ ")" := by
    have hxtext := hx.isMember.text hindexsymbol
    rw [hindextext] at hxtext
    have hfront : "sum(_1 in " = "sum(" ++ "_1" ++ " in " := by decide
    rw [← hxtext, hfront, ← hindextext]
    simp [text, render, Rendering.single]
  rw [htext]
  show _ = (_, D, some index.domain)
  rw [hr]

/-- What can be seen of a run that does as expected. -/
lemma observed_eq_of_tracks {x : Build Expr} {o : Except String (String × Domain × Option Domain)}
    (h : Tracks d s x o fun b e _ => b = (e.text, e.domain, e.kind.index?.map domain)) :
    observed (x d s) = o := by
  cases hr : x d s with
  | ok e t =>
    obtain ⟨b, rfl, rfl⟩ := h.of_ok hr
    rfl
  | error err t => exact (h.of_error hr).symm

/-- **The outcome of a summation.**  Let `c` be a collection with elements of the type `τ`, its members
typed by `r`, that has not been summed over before.  If the members of the placeholder are typed by `r'`,
then the sum of a member of each element is as `summation` says, whatever else is in the store. -/
theorem observed_sumOfMembers (hd : 1 < d) (hs : s.WellFormed) (hc : s.Knows c) (hnew : s.Unsummed c)
    (hdomain : c.domain = .host (.array τ) r)
    (hr : (s.placeholder 1 (.ofType τ r)).1.domain = .ofType τ r') (path : List String) :
    observed (sumOfMembers c path d s) = summation c.text τ r r' path := by
  refine observed_eq_of_tracks ?_
  unfold sumOfMembers summation
  have hadm : s.Admits (.ofType τ r) (.symbol "v") :=
    ⟨by simp [Kind.children], fun _ h => h.elim, trivial, by simp [Kind.index?]⟩
  obtain ⟨ht, hv, -⟩ := hs.intern hadm
  have hquiet := Store.Bindless.intern (.ofType τ r) (.symbol "v") rfl s
  have hsymbol : (s.intern (.ofType τ r) (.symbol "v")).1 = .node s.nodes.size (.ofType τ r) (.symbol "v") :=
    rfl
  refine .step (beginCollectionSum_apply hdomain d s) ?_
  have hr' := (hquiet.domain_placeholder 1 (.ofType τ r)).trans hr
  generalize s.intern (.ofType τ r) (.symbol "v") = result at *
  obtain ⟨v, t⟩ := result
  dsimp only at *
  have hvtext : v.text = "v" := by
    rw [hsymbol]
    simp [text, render, Rendering.single]
  have hmember := tracks_memberAt (d := d) (by omega) ht hv (by rw [hsymbol]; rfl)
    (by rw [hsymbol]; rfl) path
  rw [hvtext] at hmember
  refine hmember.bind ?_
  rintro found body u - ⟨hu, hquiet', hbody⟩
  exact tracks_endCollectionSum hd hu ((hnew.quiet hquiet).quiet hquiet')
    (hc.mono (hquiet.trans hquiet').le) (hv.mono hquiet'.le) (by rw [hsymbol]; rfl) hbody
    ((hquiet'.domain_placeholder 1 (.ofType τ r)).trans hr')

end Expr

/-! ## Two runs -/

/-- No domain but that of a host type is the same as it, whatever the resolvers. -/
lemma Domain.exists_eq_ofType {D : Domain} {τ : HostType} {r : Resolver}
    (h : D.same (.ofType τ r) = true) : ∃ r', D = .ofType τ r' := by
  cases τ <;> cases D <;> simp [Domain.ofType, same] at h ⊢
  all_goals exact h

namespace Store

variable {s t : Store} {c c' : Expr} {τ : HostType} {r : Resolver} {d d' : ℕ}

/-- The store has `c`, a collection of elements of the type `τ` whose members are typed by `r`, and it has
not been summed over. -/
structure Offers (s : Store) (c : Expr) (τ : HostType) (r : Resolver) : Prop where
  /-- The store has it. -/
  known : s.Knows c
  /-- Its elements have the type. -/
  domain : c.domain = .host (.array τ) r
  /-- It has not been summed over. -/
  unsummed : s.Unsummed c

/-- **Summations and what was built before.**  In two runs, whatever was built in either, the same
collection is summed over for the first time.  If the placeholders for its elements have one resolver
then the sums of a member have one outcome: both fail with the same message, or they have the same text
and the same domain, and so have their indices. -/
theorem Reachable.observed_sumOfMembers_eq (hs : s.Reachable) (ht : t.Reachable)
    (hc : s.Offers c τ r) (hc' : t.Offers c' τ r) (htext : c.text = c'.text)
    (hplaceholder : (s.placeholder 1 (.ofType τ r)).1.domain = (t.placeholder 1 (.ofType τ r)).1.domain)
    (hd : 1 < d) (hd' : 1 < d') (path : List String) :
    (c.sumOfMembers path d s |> Expr.observed) = (c'.sumOfMembers path d' t |> Expr.observed) := by
  have hwf := hs.wellFormed
  have hwf' := ht.wellFormed
  obtain ⟨r', hr'⟩ : ∃ r', (s.placeholder 1 (.ofType τ r)).1.domain = .ofType τ r' := by
    obtain ⟨hwf'', -, p, hp, -, hsame, hsymbol⟩ := hwf.placeholderOf 1 (.ofType τ r)
    obtain ⟨r', hr'⟩ := Domain.exists_eq_ofType hsame
    refine ⟨r', ?_⟩
    rw [← hsymbol, (hwf''.placeholder hp).2]
    exact hr'
  rw [Expr.observed_sumOfMembers hd hwf hc.known hc.unsummed hc.domain hr' path,
    Expr.observed_sumOfMembers hd' hwf' hc'.known hc'.unsummed hc'.domain (hplaceholder.symm.trans hr') path,
    htext]

end Store

/-! ## Sums over accounts -/

namespace Accounts

/-- An account with its balance. -/
def account : HostType := .record "Account" (.cons "Balance" .int .nil) .nil

/-- A resolver that knows the doubled balance too. -/
def doubling : Resolver := .doubling 1 (some ⟨"Doubled", "Balance"⟩)

/-- The accounts that are summed over, as a node. -/
def accounts (ordinal : ℕ) : Expr :=
  .node ordinal (.host (.array account) doubling) (.object (.array 2 account []) 1)

/-- Other accounts. -/
def others : Expr := .node 50 (.host (.array account) doubling) (.object (.array 3 account []) 1)

/-- An element of the others. -/
def element : Expr := .node 51 (.host account doubling) (.symbol "v")

/-- Its balance. -/
def balance : Expr := .node 53 .integers (.apply element (.node 52 .fields (.field "Balance")))

/-- The accounts alone. -/
def alone : List Operation := [.constant doubling (.array 2 account [])]

/-- The accounts after the sum of the balances of the others, the last operation first. -/
def after : List Operation :=
  [.constant doubling (.array 2 account []), .endCollectionSum others element balance,
    .member element "Balance", .beginCollectionSum others, .constant doubling (.array 3 account [])]

/-- The store that some operations make. -/
def made (operations : List Operation) : Store :=
  operations.foldr (fun op s => finalState (op.run 9 s)) Store.initial

lemma reaches_alone : Store.initial.Reaches (made alone) :=
  .step (.constant doubling (.array 2 account [])) 9 .refl (by simp [Operation.KnownBy])

lemma reaches_after : Store.initial.Reaches (made after) := by
  refine .step (.constant doubling (.array 2 account [])) 9
    (.step (.endCollectionSum others element balance) 9 (.step (.member element "Balance") 9
      (.step (.beginCollectionSum others) 9
        (.step (.constant doubling (.array 3 account [])) 9 .refl ?_) ?_) ?_) ?_) ?_
  all_goals
    simp only [Operation.KnownBy, Store.knows_cons, Store.knows_array, Store.knows_nil, and_true]
  · rfl
  · rfl
  · exact ⟨rfl, rfl, rfl⟩

lemma offers_alone : (made alone).Offers (accounts 50) account doubling :=
  ⟨rfl, rfl, .of_isUnsummed (by decide +kernel)⟩

lemma offers_after : (made after).Offers (accounts 57) account doubling :=
  ⟨rfl, rfl, .of_isUnsummed (by decide +kernel)⟩

/-- The doubled balances are summed as if the others had never been. -/
theorem observed_sumOfMembers_after :
    Expr.observed ((accounts 50).sumOfMembers ["Doubled"] 9 (made alone)) =
      Expr.observed ((accounts 57).sumOfMembers ["Doubled"] 9 (made after)) :=
  reaches_alone.reachable.observed_sumOfMembers_eq reaches_after.reachable offers_alone offers_after rfl rfl (by decide)
    (by decide) ["Doubled"]

/-- If the placeholder has another resolver, it does not know the member. -/
example : Expr.summation "[]" account doubling .declared ["Doubled"] =
    .error "cannot apply `_1` (host<Account>) to `.Doubled` (fields)" := by rfl

end Accounts

end TermGraph
