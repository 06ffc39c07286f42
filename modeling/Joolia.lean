import Joolia.Base.Accumulate.Theorems
import Joolia.Base.Range
import Joolia.Base.Range.Intersect
import Joolia.Base.BitArray.Cache
import Joolia.Base.BitArray.Circshift
import Joolia.Base.BitArray.Findall
import Joolia.Base.BitArray.DeleteMany
import Joolia.Base.BitArray.Reverse
import Joolia.Base.BitArray.ReverseAlong
import Joolia.Base.BitArray.Theorems
import Joolia.Base.BitSet.Compare
import Joolia.Base.Channels.Theorems
import Joolia.Base.Dict.WellFormed
import Joolia.Base.Escape.Read
import Joolia.Base.Hamt.Theorems
import Joolia.Base.IntFuncs.Theorems
import Joolia.Base.Partr.Overflow
import Joolia.Base.Partr.Theorems
import Joolia.Base.TypedRange.Scalar
import Joolia.Base.Vector.Runs
import Joolia.Base.Version.Theorems
import Joolia.Base.VersionSpec.Theorems
import Joolia.Stdlib.Dates.Theorems
import Joolia.Library.Trie
import Joolia.Compiler.Domtree.Dynamic
import Joolia.JuliaSyntax.LiteralParsing.Theorems
import Joolia.Base.Broadcast.Theorems
import Joolia.Base.TypedRange.Search
import Joolia.Base.Sort.SearchRange
import Joolia.Base.Sort.Sortperm
import Joolia.Base.Sort.Radix
import Joolia.Library.TreeOrder
import Joolia.Base.Strings.WellFormed
import Joolia.Base.MultInverses.Theorems
import Joolia.Base.Gcd.Powermod
import Joolia.Base.ReshapedArray
import Joolia.Base.Reinterpret
import Joolia.Base.IntFuncs.Binomial
import Joolia.Base.Set
import Joolia.Base.VersionSpec.Semver
import Joolia.Base.Shell.Theorems
import Joolia.Base.Parse.Tryparse
import Joolia.Base.Replace.Theorems
import Joolia.Stdlib.Dates.Ranges
import Joolia.Stdlib.Dates.Rounding
import Joolia.Stdlib.Dates.Components
import Joolia.Stdlib.Printf.Lengths
import Joolia.Base.Path.Relative
