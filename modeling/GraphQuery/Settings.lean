import GraphQuery.Json.Record
import GraphQuery.Metamodel
import GraphQuery.Script.Printer

namespace GraphQuery

structure Settings where
  print : PrintOptions := {}
  metamodel : Metamodel := {}
  resultLimit : Option Nat := none
  checkInvariants : Bool := true
deriving Inhabited

instance : BEq Settings where
  beq a b :=
    a.print == b.print && a.metamodel == b.metamodel && a.resultLimit == b.resultLimit &&
      a.checkInvariants == b.checkInvariants

namespace PrintOptions

def toJson (p : PrintOptions) : Json :=
  .object [("separator", Json.ofText p.separator), ("line_break", Json.ofText p.lineBreak),
    ("trailing_separator", .boolean p.trailing)]

def ofJson? (j : Json) : Option PrintOptions :=
  match j.fields? true ["separator", "line_break", "trailing_separator"] with
  | some [separator, lineBreak, trailing] => do
    let separator ← Json.withDefault? ({} : PrintOptions).separator Json.text? separator
    let lineBreak ← Json.withDefault? ({} : PrintOptions).lineBreak Json.text? lineBreak
    let trailing ← Json.withDefault? ({} : PrintOptions).trailing Json.boolean? trailing
    some ⟨separator, lineBreak, trailing⟩
  | _ => none

end PrintOptions

namespace FeatureKind

def name : FeatureKind → String
  | value => "Attribute"
  | reference => "Reference"

def ofName? : String → Option FeatureKind
  | "Attribute" => some value
  | "Reference" => some reference
  | _ => none

end FeatureKind

namespace Feature

def toJson (f : Feature) : Json :=
  .object [("name", Json.ofText f.name), ("kind", Json.ofText f.kind.name),
    ("target", (f.target.map Json.ofText).getD .null)]

def ofJson? (j : Json) : Option Feature :=
  match j.fields? false ["name", "kind", "target"] with
  | some [some name, some kind, target] => do
    let name ← name.text?
    let kind ← (kind.name? Json.maxNesting).bind FeatureKind.ofName?
    let target ← Json.optional? Json.text? target
    some ⟨name, kind, target⟩
  | _ => none

end Feature

namespace MetaClass

def toJson (c : MetaClass) : Json :=
  .object [("name", Json.ofText c.name), ("features", .array (c.features.map Feature.toJson))]

def ofJson? (j : Json) : Option MetaClass :=
  match j.fields? false ["name", "features"] with
  | some [some name, some (.array items)] => do
    let name ← name.text?
    let features ← items.mapM Feature.ofJson?
    some ⟨name, features⟩
  | _ => none

end MetaClass

namespace Metamodel

def toJson (m : Metamodel) : Json :=
  .object [("classes", .object (m.classes.entries.map (fun (key, c) => (Json.keyOf key, c.toJson))))]

def ofJson? (j : Json) : Option Metamodel :=
  match j.fields? false ["classes"] with
  | some [some (.object members)] => do
    let members ← Json.textMembers? members
    let entries ← members.mapM (fun (key, c) => (MetaClass.ofJson? c).map (fun c => (key, c)))
    some ⟨Dict.ofList entries⟩
  | _ => none

end Metamodel

namespace Settings

def toJson (s : Settings) : Json :=
  .object [("print", s.print.toJson), ("metamodel", s.metamodel.toJson),
    ("result_limit", (s.resultLimit.map Json.ofNatural).getD .null),
    ("check_invariants", .boolean s.checkInvariants)]

def readJson? (j : Json) : Option Settings :=
  match j.fields? true ["print", "metamodel", "result_limit", "check_invariants"] with
  | some [print, metamodel, limit, check] => do
    let print ← Json.withDefault? {} PrintOptions.ofJson? print
    let metamodel ← Json.withDefault? {} Metamodel.ofJson? metamodel
    let limit ← Json.optional? Json.natural? limit
    let check ← Json.withDefault? true Json.boolean? check
    some ⟨print, metamodel, limit, check⟩
  | _ => none

def toJsonText (s : Settings) : String :=
  s.toJson.indented 0

def ofJsonText? (text : String) : Option Settings :=
  (Json.parse? text).bind readJson?

end Settings

end GraphQuery
