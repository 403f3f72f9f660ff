import Mathlib.Logic.Equiv.Basic
import Reckon.Proofs.Compile.Bindings

/-! # Independent forms

Two forms of different names, neither of which calls the other's name, do not see each other: each
comes to the same function before the other and behind it. Only the ids tell which was first, and
those of at most two functions are exchanged.
-/

namespace Reckon

open Ir

/-- All that the form looks up in a module is in another one too, under other ids. -/
structure Form.Sees (form : Form) (ρ : FunctionId → FunctionId) (m m' : Module) : Prop where
  own : m'.named? form.prototype.symbol = (m.named? form.prototype.symbol).map (·.rename ρ)
  new : m.named? form.prototype.symbol = none → ρ ⟨m.nextId⟩ = ⟨m'.nextId⟩
  called : ∀ name, form.Calls name → m'.named? name = (m.named? name).map (·.rename ρ)

namespace Form.Sees

variable {ρ : FunctionId → FunctionId} {m m' : Module} {form : Form}

theorem standing_eq (sees : form.Sees ρ m m') (params : List String) :
    m'.standing form.prototype.symbol params =
      (m.standing form.prototype.symbol params).rename ρ := by
  simp only [Module.standing, sees.own]
  cases absent : m.named? form.prototype.symbol with
  | none => simp only [Option.map_none, Option.getD_none, Function.rename, sees.new absent]
  | some f => rfl

end Form.Sees

/-- Where the same is seen, the verdict is the same but for the ids in the code. -/
theorem Definition.verdict_rename {ρ : FunctionId → FunctionId} {m m' : Module} {d : Definition}
    (sees : (Form.definition d).Sees ρ m m') (h : m.Orderly) (h' : m'.Orderly) :
    d.verdict m' = (d.verdict m).map fun lowered => (renameCode ρ lowered.1, lowered.2) := by
  have standing : m'.standing d.prototype.symbol d.prototype.params =
      (m.standing d.prototype.symbol d.prototype.params).rename ρ :=
    sees.standing_eq d.prototype.params
  have known : ∀ name args, .call name args ∈ d.body.parts →
      (m'.declared d.prototype.symbol d.prototype.params).2.callee? name =
        ((m.declared d.prototype.symbol d.prototype.params).2.callee? name).map
          fun signature => (ρ signature.1, signature.2) := by
    intro name args part
    rw [(h.declared _ _).callee?_eq_named?, (h'.declared _ _).callee?_eq_named?,
      Module.named?_declared, Module.named?_declared, standing]
    by_cases self : name = d.prototype.symbol
    · simp only [if_pos self]
      rfl
    · simp only [if_neg self, sees.called name ⟨args, part⟩, Option.map_map]
      rfl
  have lowered := d.body.lower_renames
    (.ofParams d.prototype.params ((List.range d.prototype.params.length).map .param)) known 0
  have body : ((m.standing d.prototype.symbol d.prototype.params).rename ρ).body.isSome =
      (m.standing d.prototype.symbol d.prototype.params).body.isSome := Option.isSome_map
  have params : ((m.standing d.prototype.symbol d.prototype.params).rename ρ).params =
      (m.standing d.prototype.symbol d.prototype.params).params := rfl
  rw [d.verdict_of_standing h, d.verdict_of_standing h', standing, lowered, body, params]
  split
  · rfl
  · split <;> rfl

namespace Form

variable {ρ : FunctionId → FunctionId} {m m' : Module} {form : Form}

theorem verdict_rename (sees : form.Sees ρ m m') (h : m.Orderly) (h' : m'.Orderly) :
    form.verdict m' = (form.verdict m).map (·.rename ρ) := by
  cases form with
  | declaration p => exact congrArg Except.ok (sees.standing_eq p.params)
  | definition d =>
      have standing : m'.standing d.prototype.symbol d.prototype.params =
          (m.standing d.prototype.symbol d.prototype.params).rename ρ :=
        sees.standing_eq d.prototype.params
      simp only [verdict, Definition.verdict_rename sees h h', standing]
      cases d.verdict m with
      | error e => rfl
      | ok result => simp only [Except.map, Function.rename_defined]

theorem made_rename (sees : form.Sees ρ m m') (h : m.Orderly) (h' : m'.Orderly) :
    form.made m' = (form.made m).map (·.rename ρ) := by
  simp only [made, verdict_rename sees h h']
  cases form.verdict m with
  | error e => exact sees.own
  | ok f => rfl

end Form

/-- Under ids that keep what was given, names stand for what they stood for. -/
theorem Ir.Module.Tidy.named?_rename {m : Module} (h : m.Tidy) {ρ : FunctionId → FunctionId}
    (old : ∀ id : FunctionId, id.index < m.nextId → ρ id = id) (name : String) :
    (m.named? name).map (·.rename ρ) = m.named? name := by
  cases named : m.named? name with
  | none => rfl
  | some f =>
      have hf := List.mem_of_find?_eq_some named
      have same : f.rename ρ = f.rename fun id => id :=
        Function.rename_congr (old f.id (h.below f hf)) fun id called =>
          old id (h.given f hf id called)
      rw [Option.map_some, same, f.rename_self]

/-- Two forms that do not see each other. -/
structure Form.Independent (f g : Form) : Prop where
  different : f.prototype.symbol ≠ g.prototype.symbol
  blind : ¬f.Calls g.prototype.symbol
  blind' : ¬g.Calls f.prototype.symbol

theorem Form.Independent.symm {f g : Form} (independent : f.Independent g) : g.Independent f :=
  ⟨independent.different.symm, independent.blind', independent.blind⟩

/-- The modules that two independent forms lead to, alone and in either order. -/
structure Form.Orders (f g : Form) (m mf mg fg gf : Module) : Prop
    extends Form.Independent f g where
  tidy : m.Tidy
  alone : f.Leads m mf
  alone' : g.Leads m mg
  second : g.Leads mf fg
  second' : f.Leads mg gf

/-- Exchanges the ids of the two forms if both are new. -/
def Ir.Module.exchange (m mf mg : Module) : Equiv.Perm FunctionId :=
  .swap ⟨m.nextId⟩ ⟨min mf.nextId mg.nextId⟩

namespace Form.Orders

variable {f g : Form} {m mf mg fg gf : Module}

theorem symm (orders : f.Orders g m mf mg fg gf) : g.Orders f m mg mf gf fg :=
  ⟨orders.toIndependent.symm, orders.tidy, orders.alone', orders.alone, orders.second',
    orders.second⟩

theorem exchange_old (orders : f.Orders g m mf mg fg gf) {id : FunctionId}
    (old : id.index < m.nextId) : m.exchange mf mg id = id := by
  have here := orders.alone.nextId_le
  have there := orders.alone'.nextId_le
  apply Equiv.swap_apply_of_ne_of_ne
  · rintro rfl
    exact Nat.lt_irrefl _ old
  · rintro rfl
    change min mf.nextId mg.nextId < m.nextId at old
    omega

theorem exchange_new (orders : f.Orders g m mf mg fg gf)
    (absent : m.named? f.prototype.symbol = none) :
    m.exchange mf mg ⟨m.nextId⟩ = ⟨mg.nextId⟩ := by
  have here := orders.alone.nextId
  have there := orders.alone'.nextId
  rw [if_pos absent] at here
  have least : min mf.nextId mg.nextId = mg.nextId := by
    split at there <;> omega
  rw [Module.exchange, Equiv.swap_apply_left, least]

theorem exchange_comm : m.exchange mg mf = m.exchange mf mg := by
  rw [Module.exchange, Module.exchange, Nat.min_comm]

theorem exchange_exchange (id : FunctionId) :
    m.exchange mf mg (m.exchange mf mg id) = id := Equiv.swap_apply_self _ _ _

/-- What the first form looks up is not changed by the other one. -/
theorem sees (orders : f.Orders g m mf mg fg gf) : f.Sees (m.exchange mf mg) m mg := by
  have other : ∀ name, name ≠ g.prototype.symbol →
      mg.named? name = (m.named? name).map (·.rename (m.exchange mf mg)) := by
    intro name different
    rw [orders.alone'.others name different,
      orders.tidy.named?_rename fun _ => orders.exchange_old]
  refine ⟨other _ orders.different, orders.exchange_new, fun name calls => other name ?_⟩
  rintro rfl
  exact orders.blind calls

theorem made_eq (orders : f.Orders g m mf mg fg gf) :
    f.made mg = (f.made m).map (·.rename (m.exchange mf mg)) :=
  made_rename orders.sees orders.tidy.toOrderly orders.alone'.tidy.toOrderly

theorem verdict_eq (orders : f.Orders g m mf mg fg gf) :
    f.verdict mg = (f.verdict m).map (·.rename (m.exchange mf mg)) :=
  verdict_rename orders.sees orders.tidy.toOrderly orders.alone'.tidy.toOrderly

theorem named?_eq (orders : f.Orders g m mf mg fg gf) (name : String) :
    gf.named? name = (fg.named? name).map (·.rename (m.exchange mf mg)) := by
  by_cases isF : name = f.prototype.symbol
  · subst isF
    rw [orders.second'.own, orders.made_eq, orders.second.others _ orders.different,
      orders.alone.own]
  · by_cases isG : name = g.prototype.symbol
    · subst isG
      have made := orders.symm.made_eq
      rw [exchange_comm] at made
      rw [orders.second'.others _ isF, orders.alone'.own, orders.second.own, made, Option.map_map]
      have back : (fun k : Function => k.rename (m.exchange mf mg)) ∘
          (·.rename (m.exchange mf mg)) = id := by
        funext k
        simp only [Function.comp, k.rename_rename, exchange_exchange, k.rename_self, id]
      rw [back, Option.map_id, id]
    · rw [orders.second'.others _ isF, orders.alone'.others _ isG, orders.second.others _ isG,
        orders.alone.others _ isF, orders.tidy.named?_rename fun _ => orders.exchange_old]

theorem nextId_eq (orders : f.Orders g m mf mg fg gf) : gf.nextId = fg.nextId := by
  rw [orders.second'.nextId, orders.second.nextId, orders.alone.nextId, orders.alone'.nextId,
    orders.alone.others _ orders.different.symm, orders.alone'.others _ orders.different]
  split <;> split <;> rfl

theorem exchange_of_le (orders : f.Orders g m mf mg fg gf) {id : FunctionId}
    (new : fg.nextId ≤ id.index) : m.exchange mf mg id = id := by
  have here := orders.alone.nextId
  have there := orders.alone'.nextId
  have both := orders.second.nextId
  rw [orders.alone.others _ orders.different.symm] at both
  by_cases same : min mf.nextId mg.nextId = m.nextId
  · rw [Module.exchange, same, Equiv.swap_self]
    rfl
  · have counts : fg.nextId = m.nextId + 2 ∧ min mf.nextId mg.nextId = m.nextId + 1 := by
      split at here <;> split at there <;> simp_all
    apply Equiv.swap_apply_of_ne_of_ne
    · rintro rfl
      change fg.nextId ≤ m.nextId at new
      omega
    · rintro rfl
      change fg.nextId ≤ min mf.nextId mg.nextId at new
      omega

end Form.Orders

/-- The second module has the functions of the first one in another order, with some ids exchanged
    that were given to both. -/
structure Ir.Module.Reordered (σ : Equiv.Perm FunctionId) (m m' : Module) : Prop where
  left : m.Tidy
  right : m'.Tidy
  named : ∀ name, m'.named? name = (m.named? name).map (·.rename σ)
  nextId : m'.nextId = m.nextId
  new : ∀ id : FunctionId, m.nextId ≤ id.index → σ id = id
  /-- No call by an id that was exchanged is left dangling. -/
  stays : ∀ f ∈ m.functions, ∀ id ∈ f.callees, σ id ≠ id → ∃ g ∈ m.functions, g.id = id

/-- The function of a bare expression has its id in both modules. -/
def Ir.Module.Steady (σ : Equiv.Perm FunctionId) (m : Module) : Prop :=
  ∀ g ∈ m.functions, g.name = anonymousSymbol → σ g.id = g.id

/-- The function of a bare expression may go: if its id was exchanged, nothing else calls it. -/
def Ir.Module.Erasable (σ : Equiv.Perm FunctionId) (m : Module) : Prop :=
  ∀ g ∈ m.functions, g.name = anonymousSymbol → σ g.id ≠ g.id →
    ∀ f ∈ m.functions, g.id ∈ f.callees → f = g

namespace Ir.Module.Reordered

variable {σ : Equiv.Perm FunctionId} {m m' : Module} {f : Function} {id : FunctionId}

theorem mem_rename (reordered : m.Reordered σ m') (hf : f ∈ m.functions) :
    f.rename σ ∈ m'.functions := by
  have named := reordered.named f.name
  rw [named?_of_nodup reordered.left.names hf] at named
  exact List.mem_of_find?_eq_some named

theorem exists_of_mem (reordered : m.Reordered σ m') {g : Function} (hg : g ∈ m'.functions) :
    ∃ f ∈ m.functions, f.rename σ = g := by
  have named := reordered.named g.name
  rw [named?_of_nodup reordered.right.names hg] at named
  obtain ⟨f, namedToo, same⟩ := Option.map_eq_some_iff.mp named.symm
  exact ⟨f, List.mem_of_find?_eq_some namedToo, same⟩

theorem function?_eq (reordered : m.Reordered σ m') (id : FunctionId) :
    m'.function? (σ id) = (m.function? id).map (·.rename σ) := by
  cases found : m.function? id with
  | some f =>
      have renamed := reordered.mem_rename (mem_of_function? found)
      rw [← id_of_function? found]
      exact reordered.right.function?_of_mem renamed
  | none =>
      cases foundToo : m'.function? (σ id) with
      | none => rfl
      | some g =>
          obtain ⟨f, hf, rfl⟩ := reordered.exists_of_mem (mem_of_function? foundToo)
          have sameId := σ.injective (id_of_function? foundToo)
          have found' := reordered.left.function?_of_mem hf
          rw [sameId, found] at found'
          cases found'

theorem mirrors (reordered : m.Reordered σ m') : m.Mirrors σ m' := by
  have names : ((m.functions.map (·.rename σ)).map (·.name)).Nodup := by
    rw [List.map_map]
    exact reordered.left.names
  refine (List.perm_ext_iff_of_nodup names.of_map reordered.right.names.of_map).mpr fun g => ?_
  constructor
  · intro hg
    obtain ⟨f, hf, rfl⟩ := List.mem_map.mp hg
    exact reordered.mem_rename hf
  · intro hg
    obtain ⟨f, hf, rfl⟩ := reordered.exists_of_mem hg
    exact List.mem_map_of_mem hf

theorem textOf_eq (reordered : m.Reordered σ m') (id : FunctionId) :
    m'.textOf (σ id) = m.textOf id := by
  have named : ∀ id, m'.calleeName (σ id) = m.calleeName id := by
    intro id
    simp only [calleeName, reordered.function?_eq]
    cases m.function? id <;> rfl
  simp only [textOf, reordered.function?_eq]
  cases m.function? id with
  | none => rfl
  | some f => exact functionText_rename fun id _ => named id

theorem evaluate_eq (reordered : m.Reordered σ m') (found : m.function? id = some f) :
    m'.evaluate (σ id) = m.evaluate id := by
  have stands : ∀ id f, m.function? id = some f → m'.function? (σ id) = some (f.rename σ) := by
    intro id f found
    rw [reordered.function?_eq, found, Option.map_some]
  have gone : ∀ f ∈ m.functions, ∀ id ∈ f.callees, m.function? id = none →
      m'.function? id = none ∧ σ id = id := by
    intro f hf id called gone
    have same : σ id = id := by
      by_contra moved
      obtain ⟨g, hg, rfl⟩ := reordered.stays f hf id called moved
      cases gone.symm.trans (reordered.left.function?_of_mem hg)
    have renamed := reordered.function?_eq id
    rw [same, gone] at renamed
    exact ⟨renamed, same⟩
  simp only [evaluate, stands id f found, found, Option.map_some, call_rename stands gone _ found]
  rfl

/-- Without the function of a bare expression the modules are still the same, but for their
    order. -/
theorem deleteFunction (reordered : m.Reordered σ m') (erasable : m.Erasable σ)
    (hf : f ∈ m.functions) (bare : f.name = anonymousSymbol) :
    (m.deleteFunction f.id).Reordered σ (m'.deleteFunction (σ f.id)) where
  left := reordered.left.deleteFunction f.id
  right := reordered.right.deleteFunction (σ f.id)
  named name := by
    rw [reordered.right.named?_deleteFunction, reordered.left.named?_deleteFunction,
      reordered.named]
    cases m.named? name with
    | none => rfl
    | some k =>
        have same : (k.rename σ).id ≠ σ f.id ↔ k.id ≠ f.id := σ.injective.ne_iff
        simp only [Option.map_some, Option.filter_some, same]
        split <;> rfl
  nextId := by rw [nextId_deleteFunction, nextId_deleteFunction, reordered.nextId]
  new id := by
    rw [nextId_deleteFunction]
    exact reordered.new id
  stays k mem id called moved := by
    rw [functions_deleteFunction] at mem ⊢
    obtain ⟨hk, other⟩ := List.mem_filter.mp mem
    obtain ⟨g, hg, rfl⟩ := reordered.stays k hk id called moved
    refine ⟨g, List.mem_filter.mpr ⟨hg, ?_⟩, rfl⟩
    -- If the callee is the function that goes, then so is the caller.
    have stays : g.id ≠ f.id := by
      intro goes
      obtain rfl := reordered.left.eq_of_id_eq hg hf goes
      obtain rfl := erasable g hg bare moved k hk called
      simp at other
    simpa using stays

variable {form : Form} {n n' : Module}

theorem sees (reordered : m.Reordered σ m') (form : Form) : form.Sees σ m m' where
  own := reordered.named _
  new _ := (reordered.new ⟨m.nextId⟩ (Nat.le_refl _)).trans
    (congrArg FunctionId.mk reordered.nextId.symm)
  called name _ := reordered.named name

theorem verdict_eq (reordered : m.Reordered σ m') (form : Form) :
    form.verdict m' = (form.verdict m).map (·.rename σ) :=
  form.verdict_rename (reordered.sees form) reordered.left.toOrderly reordered.right.toOrderly

/-- Such modules lead to such modules again. -/
theorem leads (reordered : m.Reordered σ m') (leads : form.Leads m n)
    (leads' : form.Leads m' n') : n.Reordered σ n' where
  left := leads.tidy
  right := leads'.tidy
  named name := by
    by_cases own : name = form.prototype.symbol
    · rw [own, leads'.own, leads.own]
      exact form.made_rename (reordered.sees form) reordered.left.toOrderly
        reordered.right.toOrderly
    · rw [leads'.others _ own, leads.others _ own, reordered.named]
  nextId := by
    rw [leads'.nextId, leads.nextId, reordered.named, reordered.nextId]
    simp only [Option.map_eq_none_iff]
  new id later := reordered.new id (Nat.le_trans leads.nextId_le later)
  stays f hf id called moved := by
    have still : ∀ g ∈ m.functions, ∃ k ∈ n.functions, k.id = g.id := by
      intro g hg
      obtain ⟨k, hk, sameId, -⟩ := leads.keeps reordered.left hg
      exact ⟨k, hk, sameId⟩
    have old : f ∈ m.functions → ∃ g ∈ n.functions, g.id = id := by
      intro hf
      obtain ⟨g, hg, rfl⟩ := reordered.stays f hf id called moved
      exact still g hg
    rcases leads.mem_cases hf with hm | done
    · exact old hm
    · rcases form.verdict_callees reordered.left done with hm | callees
      · exact old hm
      · rcases callees id called with rfl | ⟨g, hg, rfl, -⟩
        · exact ⟨f, hf, rfl⟩
        · exact still g hg

/-- A function whose id was exchanged, and that stands behind a form, stood there before. -/
theorem exists_of_moved (reordered : m.Reordered σ m') (leads : form.Leads m n)
    (hf : f ∈ n.functions) (moved : σ f.id ≠ f.id) :
    ∃ g ∈ m.functions, g.id = f.id ∧ g.name = f.name := by
  rcases leads.mem_cases hf with old | done
  · exact ⟨f, old, rfl, rfl⟩
  · obtain ⟨sameId, name⟩ := Form.verdict_standing done
    rcases m.standing_cases form.prototype.symbol form.prototype.params with named | ⟨-, new⟩
    · exact ⟨_, List.mem_of_find?_eq_some named, sameId.symm, (m.standing_name _ _).trans name.symm⟩
    · rw [sameId, new] at moved
      exact absurd (reordered.new ⟨m.nextId⟩ (Nat.le_refl _)) moved

end Ir.Module.Reordered

namespace Ir.Module.Steady

variable {σ : Equiv.Perm FunctionId} {m m' n : Module} {form : Form}

theorem erasable (steady : m.Steady σ) : m.Erasable σ :=
  fun g hg bare moved => absurd (steady g hg bare) moved

theorem deleteFunction (steady : m.Steady σ) (id : FunctionId) :
    (m.deleteFunction id).Steady σ := by
  intro g hg
  rw [functions_deleteFunction] at hg
  exact steady g (List.mem_of_mem_filter hg)

theorem leads (steady : m.Steady σ) (reordered : m.Reordered σ m') (leads : form.Leads m n) :
    n.Steady σ := by
  intro g hg bare
  by_contra moved
  obtain ⟨k, hk, sameId, sameName⟩ := reordered.exists_of_moved leads hg moved
  exact moved (sameId ▸ steady k hk (sameName.trans bare))

end Ir.Module.Steady

namespace Ir.Module.Erasable

variable {σ : Equiv.Perm FunctionId} {m m' n : Module} {form : Form}

theorem deleteFunction (erasable : m.Erasable σ) (id : FunctionId) :
    (m.deleteFunction id).Erasable σ := by
  intro g hg bare moved f hf called
  rw [functions_deleteFunction] at hg hf
  exact erasable g (List.mem_of_mem_filter hg) bare moved f (List.mem_of_mem_filter hf) called

/-- A form leaves it so, unless it calls by its name the function of a bare expression whose id was
    exchanged. -/
theorem leads (erasable : m.Erasable σ) (reordered : m.Reordered σ m') (leads : form.Leads m n)
    (steady : form.Calls anonymousSymbol → m.Steady σ) : n.Erasable σ := by
  intro g hg bare moved f hf called
  obtain ⟨g₀, hg₀, sameId, sameName⟩ := reordered.exists_of_moved leads hg moved
  have bare₀ := sameName.trans bare
  have moved₀ : σ g₀.id ≠ g₀.id := by rwa [sameId]
  have old : f ∈ m.functions → f = g := by
    intro hm
    have isOld := erasable g₀ hg₀ bare₀ moved₀ f hm (sameId ▸ called)
    exact leads.tidy.eq_of_id_eq hf hg (isOld ▸ sameId)
  rcases leads.mem_cases hf with hm | done
  · exact old hm
  · rcases form.verdict_callees reordered.left done with hm | callees
    · exact old hm
    · rcases callees g.id called with same | ⟨k, hk, same, calls⟩
      · exact leads.tidy.eq_of_id_eq hf hg same.symm
      · obtain rfl := reordered.left.eq_of_id_eq hk hg₀ (same.trans sameId.symm)
        exact absurd (steady (bare₀ ▸ calls) k hk bare₀) moved₀

end Ir.Module.Erasable

/-- Behind both forms, only a new function is called by an id that was exchanged, and only by
    itself. -/
theorem Form.Orders.eq_of_moved {f g : Form} {m mf mg fg gf : Module}
    (orders : f.Orders g m mf mg fg gf) {k : Function} (hk : k ∈ fg.functions) {id : FunctionId}
    (called : id ∈ k.callees) (moved : m.exchange mf mg id ≠ id) : id = k.id := by
  have new : ¬id.index < m.nextId := fun old => moved (orders.exchange_old old)
  have first : k ∈ mf.functions → id = k.id := by
    intro hf
    rcases orders.alone.mem_cases hf with hm | done
    · exact absurd (orders.tidy.given k hm id called) new
    · exact (f.verdict_given orders.tidy done id called).resolve_right new
  rcases orders.second.mem_cases hk with hf | done
  · exact first hf
  · rcases g.verdict_callees orders.alone.tidy done with hf | callees
    · exact first hf
    · rcases callees id called with same | ⟨x, hx, rfl, calls⟩
      · exact same
      · rcases orders.alone.mem_cases hx with hm | done
        · exact absurd (orders.tidy.below x hm) new
        · exact absurd ((verdict_standing done).2 ▸ calls) orders.blind'

theorem Form.Orders.reordered {f g : Form} {m mf mg fg gf : Module}
    (orders : f.Orders g m mf mg fg gf) : fg.Reordered (m.exchange mf mg) gf where
  left := orders.second.tidy
  right := orders.second'.tidy
  named := orders.named?_eq
  nextId := orders.nextId_eq
  new _ := orders.exchange_of_le
  stays k hk _ called moved := ⟨k, hk, (orders.eq_of_moved hk called moved).symm⟩

theorem Form.Orders.erasable {f g : Form} {m mf mg fg gf : Module}
    (orders : f.Orders g m mf mg fg gf) : fg.Erasable (m.exchange mf mg) :=
  fun _ hg _ moved _ hf called =>
    orders.second.tidy.eq_of_id_eq hf hg (orders.eq_of_moved hf called moved).symm

/-- Forms that leave alone the name of the functions of bare expressions leave their ids alone. -/
theorem Form.Orders.steady {f g : Form} {m mf mg fg gf : Module}
    (orders : f.Orders g m mf mg fg gf) (notF : f.prototype.symbol ≠ anonymousSymbol)
    (notG : g.prototype.symbol ≠ anonymousSymbol) : fg.Steady (m.exchange mf mg) := by
  intro k hk bare
  have named := Module.named?_of_nodup orders.second.tidy.names hk
  rw [bare, orders.second.others _ notG.symm, orders.alone.others _ notF.symm] at named
  exact orders.exchange_old (orders.tidy.below k (List.mem_of_find?_eq_some named))

theorem Form.Orders.functionText_eq {f g : Form} {m mf mg fg gf : Module}
    (orders : f.Orders g m mf mg fg gf) {k : Function} (done : f.verdict m = .ok k) :
    gf.functionText (k.rename (m.exchange mf mg)) = mf.functionText k := by
  have done' : f.verdict mg = .ok (k.rename (m.exchange mf mg)) := by
    rw [orders.verdict_eq, done]
    rfl
  have own := orders.alone.function?_of_verdict done
  have own' := orders.second'.function?_of_verdict done'
  refine Module.functionText_rename fun id called => ?_
  rcases f.verdict_given orders.tidy done id called with rfl | old
  · have renamed : (k.rename (m.exchange mf mg)).id = m.exchange mf mg k.id := rfl
    rw [renamed] at own'
    simp only [Module.calleeName, own, own']
    rfl
  · have old' := Nat.lt_of_lt_of_le old orders.alone'.nextId_le
    rw [orders.exchange_old old, orders.alone.calleeName_eq orders.tidy old,
      orders.second'.calleeName_eq orders.alone'.tidy old',
      orders.alone'.calleeName_eq orders.tidy old]

end Reckon
