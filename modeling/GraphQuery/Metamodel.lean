import GraphQuery.Dict

namespace GraphQuery

inductive FeatureKind where
  | value | reference
deriving Repr, DecidableEq, Inhabited

structure Feature where
  name : String
  kind : FeatureKind
  target : Option String := none
deriving Repr, DecidableEq, Inhabited

def Feature.isReference (f : Feature) : Bool :=
  f.kind == .reference

structure MetaClass where
  name : String
  features : List Feature := []
deriving Repr, DecidableEq, Inhabited

namespace MetaClass

def withAttribute (c : MetaClass) (name : String) : MetaClass :=
  { c with features := c.features ++ [⟨name, .value, none⟩] }

def withReference (c : MetaClass) (name target : String) : MetaClass :=
  { c with features := c.features ++ [⟨name, .reference, some target⟩] }

def feature? (c : MetaClass) (name : String) : Option Feature :=
  c.features.find? (·.name == name)

def label (c : MetaClass) : String := c.name

end MetaClass

structure Metamodel where
  classes : Dict MetaClass := ∅
deriving Inhabited

instance : BEq Metamodel := ⟨fun a b => a.classes == b.classes⟩

namespace Metamodel

def addClass (m : Metamodel) (c : MetaClass) : Bool × Metamodel :=
  if m.classes.contains c.name then (false, m) else (true, ⟨m.classes.insert c.name c⟩)

def withClass (m : Metamodel) (c : MetaClass) : Metamodel :=
  (m.addClass c).2

def class? (m : Metamodel) (name : String) : Option MetaClass :=
  m.classes.get? name

def hasClass (m : Metamodel) (name : String) : Bool :=
  m.classes.contains name

def isEmpty (m : Metamodel) : Bool :=
  m.classes.isEmpty

def feature? (m : Metamodel) (className : Option String) (name : String) : Option Feature :=
  match className.bind m.class? with
  | some c => c.feature? name
  | none => m.classes.values.findSome? (·.feature? name)

end Metamodel

end GraphQuery
