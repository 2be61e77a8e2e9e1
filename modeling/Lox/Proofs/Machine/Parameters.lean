/-
  Lox.Proofs.Machine.Parameters
  ─────────────────────────────
  **A CALL BINDS ALL PARAMETERS.**

  Parameters are paired with arguments, and what is left over on either side
  would be dropped.  Nothing is: the number of arguments was compared with the
  number of parameters before (`Calls.arity`), and no two parameters share a
  name, so each has a place of its own in the scope of the call
  (`parameters_eq_zip`).

  For a class, the number that is compared and the body that runs both come from
  the nearest class that declares an initializer, however long the chain of
  superclasses is, and from the last one that this class declares
  (`starts_of_calls`).
-/
import Lox.Proofs.Machine.Frames
import Lox.Proofs.Machine.Rooted
import Mathlib.Data.List.Induction

namespace Lox

open Lockstep Resolve

/-! ## §1. Names and values side by side. -/

namespace Bindings

variable {α : Type}

/-- A new name comes last. -/
theorem insert_of_get?_eq_none {b : Bindings α} {name : String} (h : b.get? name = none) (v : α) :
    b.insert name v = b ++ [(name, v)] := by
  induction b with
  | nil => rfl
  | cons pair rest ih =>
    obtain ⟨key, old⟩ := pair
    rw [get?] at h
    split at h
    · cases h
    · next hkey =>
      rw [insert, if_neg hkey, ih h]
      rfl

/-- Different names have the values at their places. -/
theorem get?_zip {names : List String} (hn : names.Nodup) (vs : List α) {i : Nat} {name : String}
    (hname : names[i]? = some name) : get? (names.zip vs) name = vs[i]? := by
  induction names generalizing vs i with
  | nil => cases hname
  | cons key names ih =>
    rw [List.nodup_cons] at hn
    cases vs with
    | nil => rfl
    | cons v vs =>
      rw [List.zip_cons_cons, get?]
      cases i with
      | zero =>
        cases hname
        rw [if_pos rfl]
        rfl
      | succ i =>
        have hmem : name ∈ names := List.mem_of_getElem? hname
        have hne : key ≠ name := fun heq => hn.1 (heq ▸ hmem)
        rw [if_neg hne]
        exact ih hn.2 vs hname

end Bindings

/-- **Parameters and arguments side by side**: no parameter takes the place of
another. -/
theorem parameters_eq_zip {params : List Token} (hn : (params.map Token.lexeme).Nodup)
    (vs : List Value) : Config.parameters params vs = (params.map Token.lexeme).zip vs := by
  unfold Config.parameters
  -- the parameters before stay in front, and have other names
  have hfold : ∀ b : Bindings Value, (∀ t ∈ params, b.get? t.lexeme = none) →
      (params.zip vs).foldl (fun b p => b.insert p.1.lexeme p.2) b
        = b ++ (params.map Token.lexeme).zip vs := by
    induction params generalizing vs with
    | nil => exact fun b _ => (List.append_nil b).symm
    | cons t params ih =>
      intro b hb
      rw [List.map_cons, List.nodup_cons] at hn
      cases vs with
      | nil => exact (List.append_nil b).symm
      | cons v vs =>
        have hlast := Bindings.insert_of_get?_eq_none (hb t List.mem_cons_self) v
        rw [List.zip_cons_cons, List.foldl_cons, ih hn.2 vs, hlast, List.map_cons,
          List.zip_cons_cons, List.append_assoc]
        · rfl
        · intro t' ht'
          have hne : t.lexeme ≠ t'.lexeme := fun heq => hn.1 (heq ▸ List.mem_map_of_mem ht')
          rw [Bindings.get?_insert, if_neg hne]
          exact hb t' (List.mem_cons_of_mem t ht')
  exact hfold [] fun _ _ => rfl

/-! ## §2. The last method of a name. -/

/-- The methods of a class are entered one by one. -/
theorem methodTable_append (closure : ScopeId) (first : Identity)
    (methods : List (FunctionDecl Stmt)) (m : FunctionDecl Stmt) :
    Config.methodTable closure first (methods ++ [m])
      = (Config.methodTable closure first methods).insert m.name.lexeme
        ⟨first + methods.length, m, closure, m.isInitializer⟩ := by
  unfold Config.methodTable
  rw [List.zipIdx_append, List.foldl_append]
  simp

/-- **Of the methods with one name the last one counts.** -/
theorem methodTable_cases (closure : ScopeId) (first : Identity)
    (methods : List (FunctionDecl Stmt)) (name : String) :
    ((Config.methodTable closure first methods).get? name = none
      ∧ ∀ m ∈ methods, m.name.lexeme ≠ name)
    ∨ ∃ earlier decl later f, (Config.methodTable closure first methods).get? name = some f
      ∧ methods = earlier ++ decl :: later ∧ f.decl = decl ∧ f.closure = closure
      ∧ decl.name.lexeme = name ∧ ∀ m ∈ later, m.name.lexeme ≠ name := by
  induction methods using List.reverseRecOn with
  | nil => exact .inl ⟨rfl, List.forall_mem_nil _⟩
  | append_singleton methods m ih =>
    rw [methodTable_append, Bindings.get?_insert]
    by_cases hm : m.name.lexeme = name
    · rw [if_pos hm]
      exact .inr ⟨methods, m, [], _, rfl, rfl, rfl, rfl, hm, List.forall_mem_nil _⟩
    · rw [if_neg hm]
      rcases ih with ⟨hnone, hmethods⟩ | ⟨earlier, decl, later, f, hf, rfl, hrest⟩
      · exact .inl ⟨hnone, List.forall_mem_append.mpr
          ⟨hmethods, List.forall_mem_singleton.mpr hm⟩⟩
      · obtain ⟨hdecl, hclosure, hname, hlater⟩ := hrest
        refine .inr ⟨earlier, decl, later ++ [m], f, hf, ?_, hdecl, hclosure, hname, ?_⟩
        · rw [List.append_assoc]
          rfl
        · exact List.forall_mem_append.mpr ⟨hlater, List.forall_mem_singleton.mpr hm⟩

/-! ## §3. Classes and their declarations. -/

namespace Class

/-- A class was declared with certain methods, in a step from a point that was
passed. -/
def Declared (past : Setting → Config → Prop) (k : Class) (methods : List (FunctionDecl Stmt)) :
    Prop :=
  ∃ g p, past g p ∧ p.Declares k methods

/-- A class was declared without an initializer of its own. -/
def Uninitialized (past : Setting → Config → Prop) (k : Class) : Prop :=
  ∃ methods, k.Declared past methods ∧ ∀ m ∈ methods, m.isInitializer = false

/-- A class and all that it inherits from were declared. -/
def Documented (past : Setting → Config → Prop) (k : Class) : Prop :=
  ∀ j ∈ k.lineage, ∃ methods, j.Declared past methods

variable {past past' : Setting → Config → Prop} {k : Class} {methods : List (FunctionDecl Stmt)}

theorem Documented.mono (hpast : ∀ g p, past g p → past' g p) (h : k.Documented past) :
    k.Documented past' := by
  intro j hj
  obtain ⟨methods, g, p, hp, hdeclares⟩ := h j hj
  exact ⟨methods, g, p, hpast g p hp, hdeclares⟩

/-- The own methods of a declared class are those of its declaration. -/
theorem Declared.methods_eq (h : k.Declared past methods) :
    ∃ closure first, k.methods = Config.methodTable closure first methods := by
  obtain ⟨g, p, -, hdeclares⟩ := h
  cases hdeclares <;> exact ⟨_, _, rfl⟩

/-- The initializer of a class is the last one that it declares, if it declares
any. -/
theorem Declared.own_initializer (h : k.Declared past methods) :
    (k.methods.get? initializerName = none ∧ ∀ m ∈ methods, m.isInitializer = false)
    ∨ ∃ earlier decl later f, k.methods.get? initializerName = some f ∧ f.decl = decl
      ∧ methods = earlier ++ decl :: later ∧ decl.isInitializer = true
      ∧ ∀ m ∈ later, m.isInitializer = false := by
  obtain ⟨closure, first, heq⟩ := h.methods_eq
  have hinit : ∀ m : FunctionDecl Stmt, m.name.lexeme ≠ initializerName →
      m.isInitializer = false := fun m hm => beq_eq_false_iff_ne.mpr hm
  rw [heq]
  rcases methodTable_cases closure first methods initializerName with
    ⟨hnone, hmethods⟩ | ⟨earlier, decl, later, f, hf, hsplit, hdecl, -, hname, hlater⟩
  · exact .inl ⟨hnone, fun m hm => hinit m (hmethods m hm)⟩
  · exact .inr ⟨earlier, decl, later, f, hf, hdecl, hsplit, beq_iff_eq.mpr hname,
      fun m hm => hinit m (hlater m hm)⟩

/-- A class without an initializer of its own enters none. -/
theorem Uninitialized.get? (h : k.Uninitialized past) : k.methods.get? initializerName = none := by
  obtain ⟨methods, hdeclared, hmethods⟩ := h
  rcases hdeclared.own_initializer with ⟨hnone, -⟩ | ⟨earlier, decl, later, f, -, -, rfl, hdecl, -⟩
  · exact hnone
  · rw [hmethods decl (List.mem_append_right _ List.mem_cons_self)] at hdecl
    cases hdecl

/-- **A class without an initializer** is one that neither it nor what it
inherits from declares one for. -/
theorem Documented.initializer?_eq_none (h : k.Documented past) :
    k.initializer? = none ↔ ∀ j ∈ k.lineage, j.Uninitialized past := by
  unfold initializer?
  rw [method?_eq_findSome?, List.findSome?_eq_none_iff]
  constructor
  · intro hnone j hj
    obtain ⟨methods, hdeclared⟩ := h j hj
    rcases hdeclared.own_initializer with ⟨-, hmethods⟩ | ⟨_, _, _, f, hf, -⟩
    · exact ⟨methods, hdeclared, hmethods⟩
    · rw [hnone j hj] at hf
      cases hf
  · exact fun hall j hj => (hall j hj).get?

/-- **The initializer of a class** is the last one of the nearest class that
declares any. -/
theorem Documented.initializer?_eq_some (h : k.Documented past) {f : Function}
    (hf : k.initializer? = some f) :
    ∃ before owner after earlier decl later, k.lineage = before ++ owner :: after
      ∧ (∀ j ∈ before, j.Uninitialized past)
      ∧ owner.Declared past (earlier ++ decl :: later) ∧ decl.isInitializer = true
      ∧ (∀ m ∈ later, m.isInitializer = false) ∧ f.decl = decl := by
  unfold initializer? at hf
  rw [method?_eq_findSome?] at hf
  obtain ⟨before, owner, after, hsplit, howner, hbefore⟩ := List.findSome?_eq_some_iff.mp hf
  have hmem : ∀ j ∈ before ++ owner :: after, ∃ methods, j.Declared past methods :=
    fun j hj => h j (hsplit ▸ hj)
  obtain ⟨hdeclared, hdeclared', -⟩ : (∀ j ∈ before, ∃ methods, j.Declared past methods)
      ∧ (∃ methods, owner.Declared past methods) ∧ ∀ j ∈ after, _ := by
    simpa only [List.forall_mem_append, List.forall_mem_cons] using hmem
  obtain ⟨methods, howned⟩ := hdeclared'
  rcases howned.own_initializer with
    ⟨hnone, -⟩ | ⟨earlier, decl, later, f', hf', hdecl, rfl, hinit, hlater⟩
  · rw [hnone] at howner
    cases howner
  · obtain rfl : f' = f := Option.some.inj (hf'.symm.trans howner)
    refine ⟨before, owner, after, earlier, decl, later, hsplit, ?_, howned, hinit, hlater, hdecl⟩
    intro j hj
    obtain ⟨methods, hj'⟩ := hdeclared j hj
    rcases hj'.own_initializer with ⟨-, hmethods⟩ | ⟨_, _, _, f, hf, -⟩
    · exact ⟨methods, hj', hmethods⟩
    · rw [hbefore j hj] at hf
      cases hf

end Class

/-- All classes among the values were declared, and all that they inherit from. -/
def Value.Documented (past : Setting → Config → Prop) : Value → Prop
  | .class k => k.Documented past
  | _ => True

theorem Value.Documented.mono {past past' : Setting → Config → Prop}
    (hpast : ∀ g p, past g p → past' g p) {v : Value} (h : v.Documented past) :
    v.Documented past' := by
  cases v with
  | «class» k => exact Class.Documented.mono hpast h
  | _ => trivial

namespace Config

variable {past : Setting → Config → Prop} {g : Setting} {c c' : Config} {f : Function} {k : Class}
  {paren : Token} {arguments : Array Value} {callable : Callable}

/-- A step that belongs to the past documents what it declares. -/
theorem All.documented (h : c.All (Value.Documented past)) (hpast : past g c) :
    (c.step g).All (Value.Documented past) := by
  refine h.step g ?_
  intro v hv
  cases hv with
  | function | bound => trivial
  | @plain v hplain =>
    cases v with
    | «class» => exact hplain.elim
    | _ => trivial
  | @declared k methods hdeclares =>
    intro j hj
    rcases Class.mem_lineage.mp hj with rfl | ⟨parent, hparent, hin⟩
    · exact ⟨methods, g, c, hpast, hdeclares⟩
    · cases hdeclares with
      | plain => cases hparent
      | derived =>
        cases hparent
        exact h.control _ List.mem_cons_self j hin

/-! ## §4. The body of a call. -/

/-- **The body of a function begins** in a new scope inside the one that the
function closes over.  The scope holds the parameters and nothing else, each with
the argument at its place. -/
structure Enters (c c' : Config) (f : Function) (arguments : Array Value) : Prop where
  body : c'.control = .execAll f.decl.body
  fresh : c.state.scopes.nextId ≤ c'.state.scope ∧ c'.state.scope < c'.state.scopes.nextId
  closure : c'.state.scopes.enclosing? c'.state.scope = some f.closure
  count : f.decl.params.length = arguments.size
  distinct : (f.decl.params.map Token.lexeme).Nodup
  bindings : c'.state.scopes.bindings c'.state.scope
    = (f.decl.params.map Token.lexeme).zip arguments.toList
  values : ∀ (i : Nat) (t : Token), f.decl.params[i]? = some t →
    (c'.state.scopes.bindings c'.state.scope).get? t.lexeme = arguments[i]?

/-- **What a call starts.**  A function starts its body.  A class makes a new
object; it starts the last initializer of the nearest class that declares any,
bound to the object, and if there is none it takes no arguments and yields the
object. -/
inductive Starts (past : Setting → Config → Prop) (c c' : Config) (arguments : Array Value) :
    Callable → Prop
  | native {n x} (hnone : arguments = #[]) (hc : c'.control = .value (.number x)) :
      Starts past c c' arguments (.native n)
  | function {f : Function} (h : c.Enters c' f arguments) : Starts past c c' arguments (.function f)
  | initializer {k : Class} {before owner after earlier decl later} {f : Function}
      (hlineage : k.lineage = before ++ owner :: after)
      (hbefore : ∀ j ∈ before, j.Uninitialized past)
      (howner : owner.Declared past (earlier ++ decl :: later))
      (hdecl : decl.isInitializer = true) (hlater : ∀ m ∈ later, m.isInitializer = false)
      (hf : f.decl = decl) (h : c.Enters c' f arguments)
      (hthis : c'.state.scopes.bindings f.closure = [("this", .object c.state.objects.size)]) :
      Starts past c c' arguments (.class k)
  | plain {k : Class} (hk : ∀ j ∈ k.lineage, j.Uninitialized past) (hnone : arguments = #[])
      (hc : c'.control = .value (.object c.state.objects.size)) :
      Starts past c c' arguments (.class k)

theorem enters_entering {control : Control} {rest : List Frame} {s : State}
    (hle : c.state.scopes.nextId ≤ s.scopes.nextId) (hclosure : f.closure < s.scopes.nextId)
    (hn : (f.decl.params.map Token.lexeme).Nodup) (hcount : arguments.size = f.arity)
    (made : Option ObjectId) :
    c.Enters (entering ⟨control, rest, s⟩ f arguments made) f arguments := by
  have hbindings : (entering ⟨control, rest, s⟩ f arguments made).state.scopes.bindings
      (entering ⟨control, rest, s⟩ f arguments made).state.scope
      = (f.decl.params.map Token.lexeme).zip arguments.toList := by
    show (s.scopes.child f.closure _).bindings s.scopes.nextId = _
    rw [Forest.bindings_child_self, parameters_eq_zip hn]
  refine ⟨rfl, ⟨hle, ?_⟩, Forest.enclosing?_child_self _ _ _ hclosure, hcount.symm, hn, hbindings,
    ?_⟩
  · exact Forest.nextId_lt_child s.scopes f.closure _
  · intro i t ht
    have hname : (f.decl.params.map Token.lexeme)[i]? = some t.lexeme := by
      rw [List.getElem?_map, ht]
      rfl
    rw [hbindings, Bindings.get?_zip hn _ hname, Array.getElem?_toList]

/-- The parameters of a bound function have different names. -/
theorem nodup_of_bound {T : Chart} {scopes : Scopes} {decl : FunctionDecl Stmt}
    (h : BoundFunction T scopes decl) : (decl.params.map Token.lexeme).Nodup := by
  obtain ⟨name, params, body⟩ := decl
  exact h.2.1

/-- What is called in a program that runs alongside itself matches itself. -/
theorem match_of_pending {T : Chart} (halong : Alongside (byDistance T) c c)
    {callee : Value} (h : c.pending? = some (callee, paren, arguments)) :
    ∃ w, ValueMatch chains T w callee callee := by
  obtain ⟨w, scopes, a, hdoes, hwaits, -⟩ := halong
  unfold pending? at h
  split at h
  · cases h
    cases hdoes with
    | value hv => exact ⟨w, hv⟩
  · cases h
    cases hwaits with
    | cons hop _ =>
      cases hop with
      | argument _ hc => exact ⟨w, hc⟩
  · cases h

/-- A value that is about to be called is held. -/
theorem holds_of_pending {callee : Value} (h : c.pending? = some (callee, paren, arguments)) :
    c.Holds callee := by
  unfold pending? at h
  split at h
  · cases h
    exact .control List.mem_cons_self
  · cases h
    exact .frame List.mem_cons_self List.mem_cons_self
  · cases h

/-! ## §5. Calls. -/

/-- A class that is called makes an object and starts its initializer, if it has
one. -/
theorem starts_making {T : Chart} {w : Forest Value} {control : Control} {rest : List Frame}
    (hmatch : ClassMatch chains T w k k) (hk : k.Documented past)
    (hcount : arguments.size = k.arity) :
    Starts past c (making ⟨control, rest, c.state⟩ k arguments) arguments (.class k) := by
  unfold Class.arity at hcount
  unfold making
  cases hinit : k.initializer? with
  | none =>
    rw [hinit] at hcount
    exact .plain (hk.initializer?_eq_none.mp hinit) (Array.eq_empty_of_size_eq_zero hcount) rfl
  | some f =>
    rw [hinit] at hcount
    obtain ⟨before, owner, after, earlier, decl, later, hlineage, hbefore, howner, hdecl, hlater,
      hf⟩ := hk.initializer?_eq_some hinit
    -- the parameters of initializers have different names, as those of all methods
    have hmethod := hmatch.method initializerName
    rw [show k.method? initializerName = some f from hinit] at hmethod
    cases hmethod with
    | some hbound =>
      obtain ⟨outer, -, hbound⟩ := hbound
      -- the scope of `this` is made first, and the body begins inside it
      have hthis : (bind (c.state.addObject k) f c.state.objects.size).scopes.nextId
          = c.state.scopes.nextId + 1 := Forest.nextId_child c.state.scopes f.closure _
      let body := boundMethod (c.state.addObject k) f
      have hdistinct : (body.decl.params.map Token.lexeme).Nodup := nodup_of_bound hbound
      have hsame : body.decl = decl := hf
      have hclosure : body.closure = c.state.scopes.nextId := rfl
      have henters : c.Enters
          (entering ⟨control, rest, bind (c.state.addObject k) f c.state.objects.size⟩
            body arguments (some c.state.objects.size)) body arguments := by
        refine enters_entering ?_ ?_ hdistinct hcount _
        · rw [hthis]
          exact Nat.le_succ _
        · rw [hthis, hclosure]
          exact Nat.lt_succ_self _
      refine .initializer hlineage hbefore howner hdecl hlater hsame henters ?_
      show ((c.state.scopes.child f.closure _).child _ _).bindings c.state.scopes.nextId = _
      rw [Forest.bindings_child_of_lt, Forest.bindings_child_self]
      exact Forest.nextId_lt_child _ _ _

/-- **A call that passes its checks** starts the body of what is called, with
all parameters bound. -/
theorem starts_of_calls {T : Chart} (halong : Alongside (byDistance T) c c) (hrooted : c.Rooted)
    (hdocumented : c.All (Value.Documented past)) (h : c.Calls callable paren arguments)
    (hroom : g.exhausted c.state.depth = false) :
    Starts past c (c.step g) arguments callable := by
  obtain ⟨callee, hpending, hcallable⟩ := h.pending
  obtain ⟨w, hmatch⟩ := match_of_pending halong hpending
  have hholds := holds_of_pending hpending
  have hstep := step_calls h g
  rw [hroom, if_neg Bool.false_ne_true] at hstep
  have harity := h.arity
  rw [hstep]
  cases callee with
  | native n =>
    cases hcallable
    cases n
    exact .native (Array.eq_empty_of_size_eq_zero harity) rfl
  | function f =>
    cases hcallable
    cases hmatch with
    | function hf =>
      obtain ⟨outer, -, hbound, -⟩ := hf
      have hclosed : f.closure < c.state.scopes.nextId := hrooted.values.holds hholds
      exact .function (enters_entering (Nat.le_refl _) hclosed (nodup_of_bound hbound) harity none)
  | «class» k =>
    cases hcallable
    cases hmatch with
    | «class» hk => exact starts_making hk (hdocumented.holds hholds) harity
  | _ => cases hcallable

/-- **A class without an initializer** takes no arguments. -/
theorem step_uninitialized (hdocumented : c.All (Value.Documented past))
    (hpending : c.pending? = some (.class k, paren, arguments))
    (hk : ∀ j ∈ k.lineage, j.Uninitialized past) :
    (c.Calls (.class k) paren arguments ↔ arguments.size = 0)
      ∧ (arguments.size ≠ 0 → c.step g = ⟨.raising (.runtime paren.line
        (.wrongArity 0 arguments.size)), c.frames.tail, c.state⟩) := by
  have hnone := (hdocumented.holds (holds_of_pending hpending) :
    k.Documented past).initializer?_eq_none.mpr hk
  have harity : k.arity = 0 := by
    unfold Class.arity
    rw [hnone]
    rfl
  refine ⟨⟨fun h => h.arity.trans harity, fun h => ⟨⟨_, hpending, rfl⟩, h.trans harity.symm⟩⟩, ?_⟩
  intro hsize
  rw [step_pending hpending]
  show (if arguments.size ≠ k.arity then failing _ _ (.wrongArity k.arity _) else _) = _
  rw [harity, if_pos hsize]
  rfl

end Config

end Lox
