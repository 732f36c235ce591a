namespace BoundaryHeap.Text

def hexDigits (n : Nat) : List Char :=
  Nat.toDigits 16 n

def hex (n : Nat) : String :=
  "0x" ++ String.ofList (hexDigits n)

/-- The `width` low hexadecimal digits of `n`, zeros included. -/
def hexFixed : Nat → Nat → List Char
  | 0, _ => []
  | width + 1, n => hexFixed width (n / 16) ++ [Nat.digitChar (n % 16)]

def padLeft (width : Nat) (s : String) : String :=
  String.ofList (List.replicate (width - s.length) ' ') ++ s

def padRight (width : Nat) (s : String) : String :=
  s ++ String.ofList (List.replicate (width - s.length) ' ')

end BoundaryHeap.Text
