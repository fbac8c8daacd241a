-- SUMMARY: YAML documents in block style.
import RelaxedJson.Yaml.Node
import RelaxedJson.Yaml.Scalar

/-!
# YAML documents

Documents are written in block style, each level indented by two. A sequence or mapping that is an
item of a sequence starts on the line of its dash. Empty sequences and mappings are written as `[]`
and `{}`.
-/

namespace RelaxedJson.Yaml

/-- The columns of one level. -/
def indentation : Nat := 2

/-- Whether a key can stand on one line in front of its colon. -/
def isSimpleKey (key : Bytes) : Bool :=
  key.length ≤ 128 && !key.chars.any isBreak

/-- What stands between a dash and a block behind it. -/
def compact : Bytes := " ".utf8

/-- What stands between the colon of a key and a block under it. -/
def below (indent : Nat) : Bytes :=
  '\n'.ascii :: Bytes.spaces (indent + indentation)

namespace Node

mutual

/-- Writes a child of a block that is indented by `indent`, from behind its dash or colon. If it is a
    block, it starts behind `lead`. -/
def childOnto (indent : Nat) (lead : Bytes) : Node → (rest : Bytes) → Bytes
  | .scalar tag text, rest =>
    ' '.ascii :: scalarLine (indent + indentation) tag text.chars ++ rest
  | .sequence items, rest =>
    if items.isEmpty then " []\n".utf8 ++ rest
    else lead ++ itemsOnto (indent + indentation) [] items rest
  | .mapping entries, rest =>
    if entries.isEmpty then " \x7b\x7d\n".utf8 ++ rest
    else lead ++ entriesOnto (indent + indentation) [] entries rest

/-- Writes the items of a sequence that is indented by `indent`, the first behind `lead`. -/
def itemsOnto (indent : Nat) (lead : Bytes) : List Node → (rest : Bytes) → Bytes
  | [],      rest => rest
  | n :: ns, rest =>
    lead ++ '-'.ascii :: childOnto indent compact n (itemsOnto indent (Bytes.spaces indent) ns rest)

/-- Writes the entries of a mapping that is indented by `indent`, the first behind `lead`. A key that
    is not simple has a line of its own, and its value another. -/
def entriesOnto (indent : Nat) (lead : Bytes) : List (Bytes × Node) → (rest : Bytes) → Bytes
  | [],           rest => rest
  | (k, n) :: es, rest =>
    if isSimpleKey k then
      lead ++ Yaml.scalar (indent + indentation) .str k.chars ++
        ':'.ascii ::
          childOnto indent (below indent) n (entriesOnto indent (Bytes.spaces indent) es rest)
    else
      lead ++ "? ".utf8 ++ scalarLine (indent + indentation) .str k.chars ++
        Bytes.spaces indent ++
        ':'.ascii :: childOnto indent compact n (entriesOnto indent (Bytes.spaces indent) es rest)

end

/-- The text of a document. -/
def document : Node → Bytes
  | .scalar tag text => scalarLine indentation tag text.chars
  | .sequence items  => if items.isEmpty then "[]\n".utf8 else itemsOnto 0 [] items []
  | .mapping entries => if entries.isEmpty then "\x7b\x7d\n".utf8 else entriesOnto 0 [] entries []

mutual

/-- Whether all texts are well-formed UTF-8. -/
def isUtf8 : Node → Bool
  | .scalar _ text   => text.isUtf8
  | .sequence items  => itemsUtf8 items
  | .mapping entries => entriesUtf8 entries

/-- Whether all texts of the items are well-formed UTF-8. -/
def itemsUtf8 : List Node → Bool
  | []      => true
  | n :: ns => n.isUtf8 && itemsUtf8 ns

/-- Whether all texts of the entries are well-formed UTF-8. -/
def entriesUtf8 : List (Bytes × Node) → Bool
  | []           => true
  | (k, n) :: es => k.isUtf8 && n.isUtf8 && entriesUtf8 es

end

end Node

end RelaxedJson.Yaml
