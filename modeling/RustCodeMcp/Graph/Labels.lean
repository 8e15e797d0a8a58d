import RustCodeMcp.Graph.Names

/-!
# Labels of kinds

The words that answers have for the kinds of nodes and bindings.

Nothing is computed from them: a label is a constant for each kind, shared by every answer that
names one, and by the texts in which answers are compared and sorted. **What matters is only that
kinds are told apart by them**: of the kinds of bindings no two have one label
(`bindingKindLabel_injective`). The label of a node is that of its kind; an item's has the kind of
item behind it, in whichever words the answer uses for that.
-/

namespace RustCodeMcp.Navigation

/-- `binding_kind_label` -/
def bindingKindLabel : BindingKind → String
  | .declared => "Declared"
  | .namedImport => "NamedImport"
  | .globImport => "GlobImport"
  | .externCrateImport => "ExternCrateImport"

/-- `item_kind_short_label` -/
def itemKindShortLabel : ItemKind → String
  | .function => "Fn"
  | .struct => "Struct"
  | .enum => "Enum"
  | .union => "Union"
  | .trait => "Trait"
  | .typeAlias => "TypeAlias"
  | .const => "Const"
  | .static => "Static"
  | .assocFunction => "AssocFn"
  | .assocConst => "AssocConst"
  | .assocType => "AssocType"
  | .method => "Method"
  | .enumVariant => "EnumVariant"
  | .field => "Field"

/-- `node_kind_label`, with the words for the kind of an item. -/
def nodeKindLabel {N : Type} (node : Node N) (itemKindLabel : ItemKind → String) : String :=
  match node.kind with
  | .workspace => "Workspace"
  | .crate => "Crate"
  | .module => "Module"
  | .item =>
    match node.itemKind with
    | some kind => "Item." ++ itemKindLabel kind
    | none => "Item"
  | .externalSymbol => "ExternalSymbol"

/-- **No two kinds of bindings have one label.** -/
theorem bindingKindLabel_injective : Function.Injective bindingKindLabel := by
  intro k k' h
  cases k <;> cases k' <;> first | rfl | exact absurd h (by decide)

end RustCodeMcp.Navigation
