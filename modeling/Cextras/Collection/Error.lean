/-
The error codes (include/cextras/error.h) the collections return, negated.
-/
namespace Cextras.Collection

/-- `CX_ERR_INTEGER_OVERFLOW` -/
def cxErrIntegerOverflow : Int := 1

/-- `CX_ERR_NOT_FOUND` -/
def cxErrNotFound : Int := 3

/-- `CX_ERR_ALLOC` -/
def cxErrAlloc : Int := 4

end Cextras.Collection
