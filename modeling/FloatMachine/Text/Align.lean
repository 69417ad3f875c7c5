/-! Texts padded to a width; widths count characters, and a longer text is left whole. -/
namespace FloatMachine.Text

def alignRight (width : Nat) (s : String) : String := String.ofList (s.toList.leftpad width ' ')
def alignLeft (width : Nat) (s : String) : String := String.ofList (s.toList.rightpad width ' ')

def zeroPadded (width n : Nat) : String := String.ofList ((Nat.toDigits 10 n).leftpad width '0')

end FloatMachine.Text
