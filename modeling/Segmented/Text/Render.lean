import Segmented.Sequence
import Segmented.Queue
import Segmented.Text.Hidden

/-! How elements and collections of them are shown to a reader. -/

namespace Segmented

/-- A text in double quotes, with escapes for what would not show as itself. -/
def Text.quoted (text : String) : String :=
  "\"" ++ String.join (text.toList.map escaped) ++ "\""
where
  escaped (c : Char) : String :=
    if c = '"' then "\\\""
    else if c = '\\' then "\\\\"
    else if c = '\t' then "\\t"
    else if c = '\r' then "\\r"
    else if c = '\n' then "\\n"
    else if c = '\x00' then "\\0"
    else if Text.isHidden c then
      "\\u\x7b" ++ String.ofList (Nat.toDigits 16 c.toNat) ++ "\x7d"
    else c.toString

/-- Values that can be shown in a list. -/
class Render (α : Type) where
  render : α → String

instance : Render Int64 := ⟨fun n => toString n.toInt⟩

instance : Render UInt8 := ⟨fun n => toString n.toNat⟩

instance : Render String := ⟨Text.quoted⟩

instance {α β : Type} [Render α] [Render β] : Render (α × β) :=
  ⟨fun pair => "(" ++ Render.render pair.1 ++ ", " ++ Render.render pair.2 ++ ")"⟩

/-- Elements between brackets, with commas between them. -/
instance {α : Type} [Render α] : Render (List α) :=
  ⟨fun xs => "[" ++ ", ".intercalate (xs.map Render.render) ++ "]"⟩

instance {α : Type} [Render α] : Render (Sequence α) := ⟨fun s => Render.render s.toList⟩

instance {α : Type} [Render α] : Render (Queue α) := ⟨fun queue => Render.render queue.toList⟩

end Segmented
