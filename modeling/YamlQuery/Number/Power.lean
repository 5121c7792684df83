/-!
Powers of two and of ten.
-/
namespace YamlQuery

abbrev twoTo (n : Nat) : Nat := Nat.pow 2 n

abbrev tenTo (n : Nat) : Nat := Nat.pow 10 n

end YamlQuery
