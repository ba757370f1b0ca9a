import BuildingBlocks.AhoCorasick.BuildCost
import BuildingBlocks.AhoCorasick.Search
import BuildingBlocks.Cookies.Helper
import BuildingBlocks.Search.SearchUtils
