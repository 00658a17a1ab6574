import VisualScript.Json.Decode

/-!
# Settings of the written source

How deep a level is indented, whether a class opens with a banner, and how the names of temporaries
and loop indices begin.
-/

namespace VisualScript

structure Config where
  indentWidth : Nat := 4
  emitHeader : Bool := true
  tempStem : String := "temp"
  indexStem : String := "i"
deriving DecidableEq

namespace Config

def toJson (c : Config) : Json :=
  .object
    [("indent_width", .nat c.indentWidth),
      ("emit_header", .bool c.emitHeader),
      ("temp_prefix", .string c.tempStem),
      ("loop_index_prefix", .string c.indexStem)]

/-- Every setting may be left out. -/
def ofJson : Document → Decoded Config :=
  let start : Config := {}
  Fields.decode <| Config.mk
    <$> Fields.optional "indent_width" start.indentWidth (Document.asNat 64)
    <*> Fields.optional "emit_header" start.emitHeader Document.asBool
    <*> Fields.optional "temp_prefix" start.tempStem Document.asString
    <*> Fields.optional "loop_index_prefix" start.indexStem Document.asString

def ofText (text : String) : Decoded Config := Document.decodeText ofJson text

end Config

end VisualScript
