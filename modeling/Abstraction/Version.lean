/-! The version of the library. -/
namespace Abstraction

def version : String := "0.1.0"

end Abstraction
