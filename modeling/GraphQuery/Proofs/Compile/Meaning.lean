import GraphQuery.Compile
import GraphQuery.Machine.Run
import GraphQuery.Proofs.Except

/-!
The meaning of expressions, said without scripts. A value node denotes a value or a failure, a traversal
node denotes a list of values or a failure, and any other node has no meaning. Features and navigation are told in
words of their own, and agree with those of the compiler and the machine.
-/

namespace GraphQuery.Meaning

open Machine

abbrev Reading (ι : Type) := World → ι → Except RunError Value

def Knows (m : Metamodel) (className : String) : Prop :=
  ∃ entry ∈ m.classes.entries, entry.1 = className

def DeclaresFor (m : Metamodel) (className name : String) : Prop :=
  ∃ entry ∈ m.classes.entries, entry.1 = className ∧ ∃ f ∈ entry.2.features, f.name = name

/-- The metamodel declares the feature for the class or, where it does not know the class, for some class. -/
def Declares (m : Metamodel) (className : Option String) (name : String) : Prop :=
  (∃ known ∈ className, DeclaresFor m known name) ∨
    (∀ known ∈ className, ¬ Knows m known) ∧ ∃ entry ∈ m.classes.entries, DeclaresFor m entry.1 name

instance (m : Metamodel) (className : String) : Decidable (Knows m className) :=
  inferInstanceAs (Decidable (∃ entry ∈ m.classes.entries, _))

instance (m : Metamodel) (className name : String) : Decidable (DeclaresFor m className name) :=
  inferInstanceAs (Decidable (∃ entry ∈ m.classes.entries, _))

instance (m : Metamodel) (className : Option String) (name : String) : Decidable (Declares m className name) :=
  inferInstanceAs (Decidable (_ ∨ _ ∧ _))

def declarations (m : Metamodel) (className : Option String) (name : String) : List Feature :=
  let own := m.classes.entries.filter (some ·.1 = className)
  let counted := if own.isEmpty then m.classes.entries else own
  counted.flatMap (·.2.features.filter (·.name == name))

def leadsTo (w : World) (name : String) (ref : ElementRef) : Except RunError (List Value) := do
  let g ← w.contents ref
  let edges := g.edges.toList.filter (fun e => e.source = ref.element ∧ e.label = name)
  return edges.map fun e => .element ⟨ref.store, e.target⟩

def navigation (w : World) (name : String) : Value → Except RunError Value
  | .null => .ok .null
  | .element ref => do
    let e ← w.lookup ref
    let targets ← leadsTo w name ref
    match e.get? name, targets with
    | some v, _ => .ok v
    | none, [] => .ok .null
    | none, [target] => .ok target
    | none, targets => .ok (.list targets)
  | .list items => do
    let found ← items.attach.mapM fun ⟨item, _⟩ => navigation w name item
    return .list (found.flatMap spread)
  | v => .error (.cannotNavigate name v)

def rootName (name : String) : Option (Reading Unit) :=
  if name = implicitName then none else some fun w _ => w.valueOf [] name

def itemName (m : Metamodel) (declared className : Option String) (name : String) : Option (Reading Value) :=
  match declared with
  | some given =>
    if name = given then some fun _ item => .ok item
    else if name = implicitName then none
    else some fun w _ => w.valueOf [] name
  | none =>
    if name = implicitName then none
    else if name ≠ "self" ∧ (m.isEmpty ∨ Declares m className name) then
      some fun w item => navigation w name item
    else some fun w _ => w.valueOf [] name

def strict (op : Term.BinaryOp) (left right : Except RunError Value) : Except RunError Value := do
  let l ← left
  let r ← right
  Value.applyBinary op l r

def binary (op : Expr.BinaryOp) (left right : Except RunError Value) : Except RunError Value :=
  match op with
  | .equal => strict .equality left right
  | .notEqual => strict .difference left right
  | .less => strict .less left right
  | .lessOrEqual => strict .lessOrEqual left right
  | .greater => strict .greater left right
  | .greaterOrEqual => strict .greaterOrEqual left right
  | .add => strict .add left right
  | .subtract => strict .subtract left right
  | .multiply => strict .multiply left right
  | .divide => strict .divide left right
  | .and => do
    match ← left with
    | .boolean false => .ok (.boolean false)
    | .boolean true => return .boolean (← Value.truth .and (← right))
    | v => .error (.notBoolean .and v)
  | .or => do
    match ← left with
    | .boolean true => .ok (.boolean true)
    | .boolean false => return .boolean (← Value.truth .or (← right))
    | v => .error (.notBoolean .or v)
  | .implies => do
    -- a failure blames the operators of `!a || b`
    match ← left with
    | .boolean false => .ok (.boolean true)
    | .boolean true => return .boolean (← Value.truth .or (← right))
    | v => .error (.unaryMismatch .not v)

def unary : Expr.UnaryOp → Value → Except RunError Value
  | .not => Value.applyUnary .not
  | .minus => Value.applyUnary .negate

def operation? : String → Option (Value → Value → Except RunError Value)
  | "union" => some Value.union
  | "including" => some fun v item => Value.union v (.list [item])
  | "intersection" => some Value.intersection
  | _ => none

mutual
def value? {ι : Type} (names : String → Option (Reading ι)) : Expr → Option (Reading ι)
  | .literal _ value => some fun _ _ => .ok (.ofLiteral value)
  | .var _ name => names name
  | .collection _ _ items => do
    let items ← values? names items
    some fun w x => return .list (← items w x)
  | .navigation _ source feature => do
    let source ← value? names source
    some fun w x => do navigation w feature (← source w x)
  | .collectionCall _ source name arguments => do
    let source ← value? names source
    let operation ← operation? name
    let argument ← sole? names arguments
    some fun w x => do operation (← source w x) (← argument w x)
  | .binary _ op left right => do
    let left ← value? names left
    let right ← value? names right
    some fun w x => binary op (left w x) (right w x)
  | .unary _ op operand => do
    let operand ← value? names operand
    some fun w x => do unary op (← operand w x)
  | _ => none

def values? {ι : Type} (names : String → Option (Reading ι)) :
    List Expr → Option (World → ι → Except RunError (List Value))
  | [] => some fun _ _ => .ok []
  | e :: es => do
    let first ← value? names e
    let rest ← values? names es
    some fun w x => return (← first w x) :: (← rest w x)

def sole? {ι : Type} (names : String → Option (Reading ι)) : List Expr → Option (Reading ι)
  | [e] => value? names e
  | _ => none
end

structure Traversal where
  className : Option String
  items : World → Except RunError (List Value)

def concat (f : Value → Except RunError (List Value)) (values : List Value) : Except RunError (List Value) :=
  return (← values.mapM f).flatten

def extent (label : String) (w : World) : Except RunError (List Value) :=
  match w.environment.store? inputName with
  | some h => do
    let g ← (w.stores.get h.id).acquire .poisoned
    .ok ((g.withLabel label).map fun e => .element e.ref)
  | none => .error (.notHandle "V" inputName)

def targets (w : World) (feature : String) : Value → Except RunError (List Value)
  | .element ref => leadsTo w feature ref
  | v => .error (.notElement "out" v)

def attributes (w : World) (feature : String) : Value → Except RunError (List Value)
  | .element ref => return ((← w.lookup ref).get? feature).elim [] spread
  | v => .error (.notElement "values" v)

def verdict (condition : Reading Value) (blame : Value → RunError) (w : World) (item : Value) :
    Except RunError (Value × Bool) := do
  match ← condition w item with
  | .boolean b => .ok (item, b)
  | v => .error (blame v)

def verdicts (condition : Reading Value) (blame : Value → RunError) (w : World) (items : List Value) :
    Except RunError (List (Value × Bool)) :=
  items.mapM (verdict condition blame w)

namespace Traversal

def follow (m : Metamodel) (t : Traversal) (feature : String) : Traversal :=
  match (declarations m t.className feature).head?.filter (·.isReference) with
  | some f => ⟨f.target, fun w => do concat (targets w feature) (← t.items w)⟩
  | none => ⟨none, fun w => do concat (attributes w feature) (← t.items w)⟩

def call? (t : Traversal) : String → Option Traversal
  | "size" => some ⟨none, fun w => return [.integer (Int64.ofNat (← t.items w).length)]⟩
  | "isEmpty" => some ⟨none, fun w => return [.boolean (← t.items w).isEmpty]⟩
  | "notEmpty" => some ⟨none, fun w => return [.boolean !(← t.items w).isEmpty]⟩
  | "asSet" => some ⟨t.className, fun w => return Value.dedup (← t.items w)⟩
  | "first" => some ⟨t.className, fun w => return (← t.items w).take 1⟩
  | _ => none

def map (t : Traversal) (f : Reading Value) : Traversal :=
  ⟨none, fun w => do concat (fun item => return spread (← f w item)) (← t.items w)⟩

def iterate (t : Traversal) (body : Reading Value) : Expr.IteratorKind → Traversal
  | .select => ⟨t.className, fun w => do
    let judged ← verdicts body (fun v => .badFilter [v]) w (← t.items w)
    return (judged.filter (·.2)).map (·.1)⟩
  | .reject => ⟨t.className, fun w => do
    let judged ← verdicts body (.unaryMismatch .not) w (← t.items w)
    return (judged.filter (!·.2)).map (·.1)⟩
  | .collect => t.map body
  | .exist => ⟨none, fun w => do
    let judged ← verdicts body (fun v => .badFilter [v]) w (← t.items w)
    return [.boolean (judged.any (·.2))]⟩
  | .forAll => ⟨none, fun w => do
    let judged ← verdicts body (.unaryMismatch .not) w (← t.items w)
    return [.boolean (judged.all (·.2))]⟩

end Traversal

def traversal? (m : Metamodel) : Expr → Option Traversal
  | .extent _ _ className =>
    if m.isEmpty ∨ m.hasClass className then some ⟨some className, extent className⟩ else none
  | .navigation _ source feature => do
    let t ← traversal? m source
    some (t.follow m feature)
  | .collectionCall _ source name arguments => do
    let t ← traversal? m source
    if arguments.isEmpty then t.call? name else none
  | .iterator _ source kind declared body => do
    let t ← traversal? m source
    let body ← value? (itemName m declared t.className) body
    some (t.iterate body kind)
  | .binary _ op left right => do
    let t ← traversal? m left
    let right ← value? rootName right
    some (t.map fun w item => binary op (.ok item) (right w ()))
  | .unary _ op operand => do
    let t ← traversal? m operand
    some (t.map fun _ item => unary op item)
  | _ => none

def whole? (m : Metamodel) (e : Expr) : Option (World → Except RunError (List Value)) :=
  match traversal? m e with
  | some t => some t.items
  | none => (value? rootName e).map fun reading w => return [← reading w ()]

end GraphQuery.Meaning

namespace GraphQuery

theorem Dict.filter_entries {α : Type} (d : Dict α) (key : String) :
    d.entries.filter (·.1 = key) = ((d.get? key).map (key, ·)).toList := by
  obtain ⟨entries, hsorted⟩ := d
  change entries.filter (·.1 = key) = ((findEntry key entries).map (key, ·)).toList
  induction entries with
  | nil => rfl
  | cons entry entries ih =>
    obtain ⟨k, v⟩ := entry
    obtain ⟨hlater, hsorted⟩ := List.pairwise_cons.1 hsorted
    rw [findEntry]
    by_cases hk : key = k
    · subst hk
      -- the keys increase, so that none comes again
      have hnone : entries.filter (·.1 = key) = [] := by
        apply List.filter_eq_nil_iff.2
        intro other hother hkey
        have hlt := hlater other hother
        rw [of_decide_eq_true hkey] at hlt
        exact String.lt_irrefl key hlt
      rw [if_pos rfl, List.filter_cons_of_pos (by simp), hnone]
      rfl
    · rw [if_neg hk, List.filter_cons_of_neg (by simpa using Ne.symm hk), ih hsorted]

open Meaning

theorem Metamodel.feature?_eq (m : Metamodel) (className : Option String) (name : String) :
    m.feature? className name = (declarations m className name).head? := by
  have hall : m.classes.values.findSome? (·.feature? name) =
      (m.classes.entries.flatMap (·.2.features.filter (·.name == name))).head? := by
    simp only [List.head?_flatMap, List.head?_filter, Dict.values, List.findSome?_map]
    rfl
  unfold feature? declarations
  cases className with
  | none => simpa using hall
  | some known =>
    have hown : m.classes.entries.filter (some ·.1 = some known) = ((m.class? known).map (known, ·)).toList := by
      simpa [class?] using m.classes.filter_entries known
    simp only [Option.bind_some, hown]
    cases m.class? known with
    | none => exact hall
    | some c => simp [MetaClass.feature?]

theorem Meaning.declares_iff {m : Metamodel} {className : Option String} {name : String} :
    Declares m className name ↔ (m.feature? className name).isSome := by
  have hsome : ∀ entries : List (String × MetaClass),
      (entries.flatMap (·.2.features.filter (·.name == name))).head?.isSome ↔
        ∃ entry ∈ entries, ∃ f ∈ entry.2.features, f.name = name := by
    intro entries
    simp [List.head?_flatMap, List.findSome?_isSome_iff]
  rw [m.feature?_eq, declarations]
  split
  · rename_i hnone
    have hunknown : ∀ known ∈ className, ¬ Knows m known := by
      rintro known hknown ⟨entry, hentry, rfl⟩
      have hother := List.filter_eq_nil_iff.1 (List.isEmpty_iff.1 hnone) entry hentry
      exact hother (decide_eq_true hknown.symm)
    rw [hsome]
    constructor
    · rintro (⟨known, -, entry, hentry, -, hf⟩ | ⟨-, -, -, entry, hentry, -, hf⟩) <;> exact ⟨entry, hentry, hf⟩
    · rintro ⟨entry, hentry, hf⟩
      exact .inr ⟨hunknown, entry, hentry, entry, hentry, rfl, hf⟩
  · rename_i hsome'
    rw [hsome]
    constructor
    · rintro (⟨known, hknown, entry, hentry, rfl, hf⟩ | ⟨hunknown, -⟩)
      · exact ⟨entry, List.mem_filter.2 ⟨hentry, decide_eq_true hknown.symm⟩, hf⟩
      · obtain ⟨entry, hentry⟩ := List.exists_mem_of_ne_nil _ (fun h => hsome' (List.isEmpty_iff.2 h))
        obtain ⟨hentry, hclass⟩ := List.mem_filter.1 hentry
        exact absurd ⟨entry, hentry, rfl⟩ (hunknown entry.1 (of_decide_eq_true hclass).symm)
    · rintro ⟨entry, hentry, hf⟩
      obtain ⟨hentry, hclass⟩ := List.mem_filter.1 hentry
      exact .inl ⟨entry.1, (of_decide_eq_true hclass).symm, entry, hentry, rfl, hf⟩

theorem Graph.adjacent_outgoing (g : Graph) (id : ElementId) (label : String) :
    g.adjacent id .outgoing (some label) =
      (g.edges.toList.filter (fun e => e.source = id ∧ e.label = label)).map (·.target) := by
  have htest : (fun e : Edge => decide (e.source = id ∧ e.label = label)) =
      fun e => e.label == label && e.source == id := by
    funext e
    rw [Bool.eq_iff_iff]
    simp [and_comm]
  rw [htest]
  simp [adjacent, edgesAt, Edge.touches, Edge.neighbour?]

open Machine

theorem Meaning.leadsTo_eq (w : World) (name : String) (ref : ElementRef) :
    leadsTo w name ref = w.adjacent ref .outgoing (some name) := by
  simp only [leadsTo, World.adjacent, Graph.adjacent_outgoing, List.map_map]
  rfl

theorem Meaning.navigation_element (w : World) (name : String) (ref : ElementRef) :
    navigation w name (.element ref) = w.feature ref name := by
  rw [navigation, World.feature, leadsTo_eq]
  cases hlookup : w.lookup ref with
  | error e => rfl
  | ok e =>
    obtain ⟨g, hcontents, -⟩ := bind_eq_ok.1 hlookup
    simp only [ok_bind, World.adjacent, hcontents]
    generalize List.map _ _ = targets
    cases e.get? name with
    | some v => rfl
    | none => rcases targets with _ | ⟨target, _ | ⟨other, targets⟩⟩ <;> rfl

mutual
theorem Meaning.navigation_eq (w : World) (name : String) : (v : Value) → navigation w name v = navigate w name v
  | .null => by rw [navigation, navigate]
  | .element ref => by rw [navigation_element, navigate]
  | .list items => by
    rw [navigation, navigate, ← navigations_eq w name items]
    rw [List.mapM_subtype (g := navigation w name) fun _ _ => rfl, List.unattach_attach]
    cases items.mapM (navigation w name) <;> rfl
  | .boolean _ | .integer _ | .float _ | .string _ => by simp [navigation, navigate]

theorem Meaning.navigations_eq (w : World) (name : String) : (vs : List Value) →
    (vs.mapM (navigation w name)).map (·.flatMap spread) = navigateAll w name vs
  | [] => by
    rw [navigateAll]
    rfl
  | v :: vs => by
    rw [navigateAll, ← navigation_eq w name v, ← navigations_eq w name vs, List.mapM_cons]
    cases navigation w name v with
    | error e => rfl
    | ok first => cases vs.mapM (navigation w name) <;> rfl
end

end GraphQuery
