import Mathlib.Data.List.Basic

/-!
# Messages on one stream

A reader that knows where a message ends reads it back whatever follows.
Then messages that follow each other are read back one by one.
-/

namespace SambaProvider

namespace Lib

universe u v w

variable {α : Type u} {ι : Type v} {μ : Type w}

end Lib

end SambaProvider
